/-
  Inkentry.Carrier.PublishRuns

  What any number of clones keep while they publish their notes to one remote,
  in any order of their steps and with any step cut off or failing.

  `publish_law` says that no notes ref loses a line and that a call that reports
  success leaves both sides with what the other one had.  `lostRaces_le` charges
  each lost race to another call's push that landed in between, so a call that
  git works for gets through unless three of them do.
-/

import Inkentry.Carrier.Publish

namespace Inkentry
namespace Carrier
namespace Publish

open GitNotes Memory Runs

/-! ## Lines -/

/-- The lines of the notes, each with the commit it annotates. -/
def noteLines (notes : Notes) : Set (String × NoteRecord) := {x | x.2 ∈ notes x.1}

/-- A merge on a base both sides have the lines of keeps the lines of both. -/
theorem noteLines_mergedNotes (env : NotesMerge) {base ours theirs : Notes}
    (hours : noteLines base ⊆ noteLines ours) (htheirs : noteLines base ⊆ noteLines theirs) :
    noteLines ours ∪ noteLines theirs ⊆ noteLines (mergedNotes env base ours theirs) := by
  rintro ⟨target, r⟩ hx
  show r ∈ mergedNotes env base ours theirs target
  unfold mergedNotes
  split
  case isTrue hbase =>
    -- theirs did not change the note, so ours has all of it
    rcases hx with hx | hx
    · exact hx
    · have hr : r ∈ theirs target := hx
      rw [hbase] at hr
      exact hours (a := (target, r)) hr
  case isFalse =>
    split
    case isTrue hbase =>
      rcases hx with hx | hx
      · have hr : r ∈ ours target := hx
        rw [hbase] at hr
        exact htheirs (a := (target, r)) hr
      · exact hx
    case isFalse => exact (env.mem_merge ours theirs target r).mpr hx

variable {M P : Type*}

/-- The lines a ref has that points at a commit, or at none. -/
def World.lines (w : World M P) (oid : Option Nat) : Set (String × NoteRecord) :=
  noteLines (w.notesAt oid)

variable {host : P → M} {w w' w'' : World M P}

theorem lines_none (w : World M P) : w.lines none = ∅ :=
  Set.eq_empty_of_forall_notMem fun _ hx => List.not_mem_nil hx

/-! ## What every step keeps -/

/-- The second commit descends from the first one, or is the same. -/
def Behind (h : History Notes) (before after : Option Nat) : Prop :=
  ∀ r ∈ before, ∃ r' ∈ after, h.Reaches r' r

theorem Behind.refl (h : History Notes) (oid : Option Nat) : Behind h oid oid :=
  fun r hr => ⟨r, hr, .refl h r⟩

theorem Behind.trans {h : History Notes} {a b c : Option Nat} (hab : Behind h a b)
    (hbc : Behind h b c) : Behind h a c := by
  intro r hr
  obtain ⟨r', hr', hreach⟩ := hab r hr
  obtain ⟨r'', hr'', hreach'⟩ := hbc r' hr'
  exact ⟨r'', hr'', hreach'.trans hreach⟩

theorem Behind.mono {h h' : History Notes} {a b : Option Nat} (hab : Behind h a b)
    (hext : h.Extends h') (hlt : ∀ r ∈ b, r < h.size) : Behind h' a b := by
  intro r hr
  obtain ⟨r', hr', hreach⟩ := hab r hr
  exact ⟨r', hr', (hext.reaches_iff (hlt r' hr')).mpr hreach⟩

/-- Commits keep lines, the refs point at commits that are there, a tracking ref at one the
    remote has had, and a call under way has notes to push. -/
structure Sound (host : P → M) (w : World M P) : Prop where
  grows : w.history.Grows noteLines
  ref_lt : ∀ ref, ∀ r ∈ w.refs ref, r < w.history.size
  tracked : ∀ m, Behind w.history (w.refs (.tracking m)) (w.refs .remote)
  attempt_le : ∀ p k, (w.calls p).attempt? = some k ∨ w.calls p = .published k →
    1 ≤ k ∧ k ≤ MAX_PUSH_ATTEMPTS
  has_notes : ∀ p k, (w.calls p).attempt? = some k → w.refs (.working (host p)) ≠ none

theorem sound_initial : Sound host (World.initial : World M P) where
  grows i j h := by
    rcases h with rfl | h
    · exact subset_rfl
    · exact absurd h List.not_mem_nil
  ref_lt ref r h := by cases h
  tracked m r h := by cases h
  attempt_le p k h := by rcases h with h | h <;> cases h
  has_notes p k h := by cases h

/-- From one state to a later one: commits are added, and refs move forward. -/
structure Advances (w w' : World M P) : Prop where
  history : w.history.Extends w'.history
  refs : ∀ ref, Behind w'.history (w.refs ref) (w'.refs ref)

/-- A state that keeps what the one before it kept, and is ahead of it. -/
def Good (host : P → M) (w w' : World M P) : Prop := Sound host w' ∧ Advances w w'

theorem Good.refl (h : Sound host w) : Good host w w := ⟨h, .refl _, fun _ => .refl _ _⟩

theorem Good.trans (h : Good host w w') (h' : Good host w' w'') : Good host w w'' :=
  ⟨h'.1, h.2.history.trans h'.2.history, fun ref =>
    ((h.2.refs ref).mono h'.2.history (h.1.ref_lt ref)).trans (h'.2.refs ref)⟩

theorem Behind.lines {a b : Option Nat} (hab : Behind w.history a b) (h : Sound host w) :
    w.lines a ⊆ w.lines b := by
  cases a with
  | none => exact lines_none w ▸ Set.empty_subset _
  | some r =>
    obtain ⟨r', rfl, hreach⟩ := hab r rfl
    exact h.grows r' r hreach

theorem Good.lines (hgood : Good host w w') (h : Sound host w) (ref : Ref M) :
    w.lines (w.refs ref) ⊆ w'.lines (w'.refs ref) := by
  refine Set.Subset.trans ?_ ((hgood.2.refs ref).lines hgood.1)
  cases hr : w.refs ref with
  | none => exact lines_none w ▸ Set.empty_subset _
  | some r =>
    show noteLines (w.history.tree r) ⊆ noteLines (w'.history.tree r)
    rw [(hgood.2.history.2 r (h.ref_lt ref r hr)).2]

theorem lines_mergeBase_subset (h : Sound host w) (base : Option Nat) (ours theirs : Nat) :
    w.lines (w.mergeBase base ours theirs) ⊆ w.lines (some ours)
      ∧ w.lines (w.mergeBase base ours theirs) ⊆ w.lines (some theirs) := by
  cases hbase : w.mergeBase base ours theirs with
  | none => exact lines_none w ▸ ⟨Set.empty_subset _, Set.empty_subset _⟩
  | some b =>
    have hreach := of_decide_eq_true (Option.filter_eq_some_iff.mp hbase).2
    exact ⟨h.grows ours b hreach.1, h.grows theirs b hreach.2⟩

/-! ### The moves -/

variable {p : P}
variable {phase : Phase}

section Calls

variable [DecidableEq P]

@[simp] theorem calls_goto_self (w : World M P) (p : P) (phase : Phase) :
    (w.goto p phase).calls p = phase := Function.update_self ..

theorem calls_goto_of_ne (w : World M P) {p q : P} (hq : q ≠ p) (phase : Phase) :
    (w.goto p phase).calls q = w.calls q := Function.update_of_ne hq ..

theorem good_goto (h : Sound host w) (p : P)
    (hattempt : ∀ k, phase.attempt? = some k ∨ phase = .published k → 1 ≤ k ∧ k ≤ MAX_PUSH_ATTEMPTS)
    (hnotes : ∀ k, phase.attempt? = some k → w.refs (.working (host p)) ≠ none) :
    Good host w (w.goto p phase) := by
  refine ⟨⟨h.grows, h.ref_lt, h.tracked, fun q k hk => ?_, fun q k hk => ?_⟩,
    .refl _, fun _ => .refl _ _⟩
  · by_cases hq : q = p
    · subst hq
      rw [calls_goto_self] at hk
      exact hattempt k hk
    · rw [calls_goto_of_ne w hq] at hk
      exact h.attempt_le q k hk
  · by_cases hq : q = p
    · subst hq
      rw [calls_goto_self] at hk
      exact hnotes k hk
    · rw [calls_goto_of_ne w hq] at hk
      exact h.has_notes q k hk

/-- A call ends without success. -/
theorem good_end (h : Sound host w) (p : P) (hattempt : phase.attempt? = none)
    (hpublished : ∀ k, phase ≠ .published k) : Good host w (w.goto p phase) := by
  have hnone : ∀ k, phase.attempt? ≠ some k := fun k hk => by
    rw [hattempt] at hk
    cases hk
  exact good_goto h p (fun k hk => (hk.elim (hnone k) (hpublished k)).elim)
    fun k hk => absurd hk (hnone k)

/-- A call under way goes on with the attempt it is at. -/
theorem good_goOn (h : Sound host w) {k : Nat} (hk : (w.calls p).attempt? = some k)
    (hphase : phase.attempt? = some k) : Good host w (w.goto p phase) := by
  refine good_goto h p (fun k' hk' => ?_) fun _ _ => h.has_notes p k hk
  rcases hk' with hk' | hk'
  · exact h.attempt_le p k' (.inl (hk.trans (hphase.symm.trans hk')))
  · rw [hk'] at hphase
    cases hphase

theorem good_begin (h : Sound host w) (p : P) (nested resolves : Bool) :
    Good host w (w.begin host p nested resolves) := by
  unfold World.begin
  split
  · exact .refl h
  · split
    · exact good_end h p rfl (fun _ h => by cases h)
    · split
      case isTrue => exact good_end h p rfl (fun _ h => by cases h)
      case isFalse hnotes =>
        split
        · refine good_goto h p (fun k hk => ?_) (fun _ _ => hnotes)
          rcases hk with hk | hk
          · obtain rfl := Option.some.inj hk
            decide
          · cases hk
        · exact good_end h p rfl (fun _ h => by cases h)

end Calls

variable [DecidableEq M]

@[simp] theorem refs_setRef_self (w : World M P) (ref : Ref M) (oid : Nat) :
    (w.setRef ref oid).refs ref = some oid := Function.update_self ..

theorem refs_setRef_of_ne (w : World M P) {ref ref' : Ref M} (href : ref' ≠ ref) (oid : Nat) :
    (w.setRef ref oid).refs ref' = w.refs ref' := Function.update_of_ne href ..

/-- A ref moves forward, a tracking ref to a commit the remote has had. -/
theorem good_setRef (h : Sound host w) {ref : Ref M} {oid : Nat} (hlt : oid < w.history.size)
    (hforward : Behind w.history (w.refs ref) (some oid))
    (htracked : ∀ m, ref = .tracking m → Behind w.history (some oid) (w.refs .remote)) :
    Good host w (w.setRef ref oid) := by
  have hrefs : ∀ ref', Behind w.history (w.refs ref') ((w.setRef ref oid).refs ref') := by
    intro ref'
    by_cases href : ref' = ref
    · rw [href, refs_setRef_self]
      exact hforward
    · rw [refs_setRef_of_ne w href]
      exact .refl _ _
  refine ⟨⟨h.grows, fun ref' r hr => ?_, fun m => ?_, h.attempt_le, fun p k hk hnone => ?_⟩,
    .refl _, hrefs⟩
  · by_cases href : ref' = ref
    · rw [href, refs_setRef_self] at hr
      exact Option.some.inj hr ▸ hlt
    · rw [refs_setRef_of_ne w href] at hr
      exact h.ref_lt ref' r hr
  · refine Behind.trans ?_ (hrefs .remote)
    by_cases href : .tracking m = ref
    · rw [href, refs_setRef_self]
      exact htracked m href.symm
    · rw [refs_setRef_of_ne w href]
      exact h.tracked m
  · obtain ⟨r, hr⟩ := Option.ne_none_iff_exists'.mp (h.has_notes p k hk)
    obtain ⟨r', hr', -⟩ := hrefs _ r hr
    rw [hnone] at hr'
    cases hr'

/-- A commit that has the lines of its parents, the working ref's among them. -/
theorem good_commit (h : Sound host w) (m : M) {parents : List Nat} {notes : Notes}
    (hmem : ∀ r ∈ w.refs (.working m), r ∈ parents)
    (hlines : ∀ p ∈ parents, p < w.history.size → w.lines (some p) ⊆ noteLines notes) :
    Good host w (w.commit m parents notes) := by
  have hext := w.history.extends_add parents notes
  -- the history is added to first, then the ref moves
  have hadd : Good host w { w with history := w.history.add parents notes } :=
    ⟨⟨h.grows.add hlines, fun ref r hr => (h.ref_lt ref r hr).trans_le hext.1,
      fun m' => (h.tracked m').mono hext (h.ref_lt _), h.attempt_le, h.has_notes⟩,
      hext, fun _ => .refl _ _⟩
  exact hadd.trans (good_setRef hadd.1 (Nat.lt_succ_self _)
    (fun r hr => ⟨_, rfl, History.reaches_add (hmem r hr) (h.ref_lt _ r hr)⟩)
    fun m' hm' => by cases hm')

theorem good_append (h : Sound host w) (m : M) (target : String) (records : List NoteRecord) :
    Good host w (w.append m target records) := by
  refine good_commit h m (fun r hr => Option.mem_toList.mpr hr) ?_
  rintro p hp - ⟨target', r⟩ hr
  rw [Option.mem_toList.mp hp]
  show r ∈ Function.update (w.notesAt (some p)) target (w.notesAt (some p) target ++ records) target'
  have hr : r ∈ w.notesAt (some p) target' := hr
  by_cases htarget : target' = target
  · subst htarget
    rw [Function.update_self]
    exact List.mem_append_left _ hr
  · rwa [Function.update_of_ne htarget]

/-- A fetch leaves the tracking ref with what the remote has. -/
theorem fetch_spec (h : Sound host w) (m : M) :
    Good host w (w.fetch m) ∧ (w.fetch m).calls = w.calls
      ∧ Behind (w.fetch m).history ((w.fetch m).refs .remote) ((w.fetch m).refs (.tracking m)) := by
  unfold World.fetch
  split
  case h_1 hnone => exact ⟨.refl h, rfl, fun r hr => by rw [hnone] at hr; cases hr⟩
  case h_2 r hr =>
    refine ⟨good_setRef h (h.ref_lt _ r hr) (hr ▸ h.tracked m) fun _ _ => hr ▸ .refl _ _, rfl, ?_⟩
    rw [refs_setRef_self, refs_setRef_of_ne w (by simp), hr]
    exact .refl _ _

/-- A merge that runs leaves the working ref ahead of the tracking ref. -/
theorem mergeTrackingNotes_spec (env : NotesMerge) (h : Sound host w) (m : M) (base : Option Nat)
    (attempt : MergeAttempt) {w₁ : World M P}
    (hw₁ : (w.mergeTrackingNotes env m base attempt).2 = w₁) :
    Good host w w₁ ∧ w₁.calls = w.calls ∧ w₁.refs .remote = w.refs .remote
      ∧ (attempt = .runs → Behind w₁.history (w.refs (.tracking m)) (w₁.refs (.working m))) := by
  subst hw₁
  have hset : ∀ (w : World M P) (oid : Nat), (w.setRef (.working m) oid).refs .remote
      = w.refs .remote ∧ (w.setRef (.working m) oid).refs (.working m) = some oid :=
    fun w oid => ⟨refs_setRef_of_ne w (by simp) oid, refs_setRef_self ..⟩
  cases attempt with
  | locked => exact ⟨.refl h, rfl, rfl, fun h => by cases h⟩
  | fails => exact ⟨.refl h, rfl, rfl, fun h => by cases h⟩
  | runs =>
    unfold World.mergeTrackingNotes
    dsimp only
    split
    case h_1 hnone => exact ⟨.refl h, rfl, rfl, fun _ r hr => by rw [hnone] at hr; cases hr⟩
    case h_2 theirs hours htheirs =>
      refine ⟨good_setRef h (h.ref_lt _ _ htheirs) (fun r hr => ?_) (fun _ hm => by cases hm), rfl,
        (hset w _).1, fun _ => ?_⟩
      · rw [hours] at hr
        cases hr
      · rw [(hset w _).2, htheirs]
        exact .refl _ _
    case h_3 ours theirs hours htheirs =>
      split
      case isTrue hreach =>
        refine ⟨.refl h, rfl, rfl, fun _ r hr => ⟨ours, hours, ?_⟩⟩
        exact Option.some.inj (htheirs.symm.trans hr) ▸ hreach
      case isFalse =>
        split
        case isTrue hreach =>
          refine ⟨good_setRef h (h.ref_lt _ _ htheirs) (fun r hr => ⟨theirs, rfl, ?_⟩)
            (fun _ hm => by cases hm), rfl, (hset w _).1, fun _ => ?_⟩
          · exact Option.some.inj (hours.symm.trans hr) ▸ hreach
          · rw [(hset w _).2, htheirs]
            exact .refl _ _
        case isFalse =>
          -- a true merge has the lines of both sides
          obtain ⟨hbase, hbase'⟩ := lines_mergeBase_subset h base ours theirs
          have hboth := noteLines_mergedNotes env hbase hbase'
          refine ⟨good_commit h m (fun r hr => ?_) ?_, rfl, (hset _ _).1, fun _ r hr => ?_⟩
          · exact Option.some.inj (hours.symm.trans hr) ▸ List.mem_cons_self
          · intro p hp _
            rcases List.mem_pair.mp hp with rfl | rfl
            · exact Set.subset_union_left.trans hboth
            · exact Set.subset_union_right.trans hboth
          · obtain rfl := Option.some.inj (htheirs.symm.trans hr)
            exact ⟨_, (hset _ _).2, History.reaches_add (by simp) (h.ref_lt _ _ htheirs)⟩

/-! ### The steps of a call -/

variable [DecidableEq P]

/-- What a push does: the remote takes the commit, or the race is lost, or it fails. -/
theorem push_cases (host : P → M) (w : World M P) (p : P) (attempt : PushAttempt) :
    (∃ k oid, w.calls p = .pushing k ∧ w.refs (.working (host p)) = some oid ∧ w.Takes oid
      ∧ w.push host p attempt = (w.setRef .remote oid).goto p (.published k))
    ∨ (∃ k oid, w.calls p = .pushing k ∧ w.refs (.working (host p)) = some oid ∧ ¬ w.Takes oid
      ∧ w.push host p attempt
        = w.goto p (if k < MAX_PUSH_ATTEMPTS then .fetching (k + 1) else .failed))
    ∨ (∃ k, w.calls p = .pushing k ∧ w.push host p attempt = w.goto p .failed
      ∧ (attempt = .arrives → w.refs (.working (host p)) = none))
    ∨ w.push host p attempt = w := by
  unfold World.push
  split
  case h_1 k oid hk hoid =>
    split
    case isTrue htakes => exact .inl ⟨k, oid, hk, hoid, htakes, rfl⟩
    case isFalse htakes => exact .inr (.inl ⟨k, oid, hk, hoid, htakes, rfl⟩)
  case h_2 k hk hnot =>
    refine .inr (.inr (.inl ⟨k, hk, rfl, fun harrives => ?_⟩))
    exact Option.eq_none_iff_forall_ne_some.mpr fun oid hoid => hnot oid harrives hoid
  case h_3 => exact .inr (.inr (.inr rfl))

theorem good_push (h : Sound host w) (p : P) (attempt : PushAttempt) :
    Good host w (w.push host p attempt) := by
  rcases push_cases host w p attempt with ⟨k, oid, hk, hoid, htakes, heq⟩ |
    ⟨k, oid, hk, hoid, -, heq⟩ | ⟨k, hk, heq, -⟩ | heq <;> rw [heq]
  · -- the remote moves to a commit that descends from its own
    have hmove : Good host w (w.setRef .remote oid) :=
      good_setRef h (h.ref_lt _ oid hoid) (fun r hr => ⟨oid, rfl, htakes r hr⟩)
        fun m hm => by cases hm
    refine hmove.trans (good_goto hmove.1 p (fun k' hk' => ?_) fun k' hk' => by cases hk')
    rcases hk' with hk' | hk'
    · cases hk'
    · obtain rfl := Phase.published.inj hk'
      exact h.attempt_le p k (.inl (by rw [hk]; rfl))
  · split
    case isTrue hlt =>
      refine good_goto h p (fun k' hk' => ?_) fun _ _ => h.has_notes p k (by rw [hk]; rfl)
      rcases hk' with hk' | hk'
      · obtain rfl := Option.some.inj hk'
        exact ⟨Nat.succ_pos k, hlt⟩
      · cases hk'
    case isFalse => exact good_end h p rfl (fun _ h => by cases h)
  · exact good_end h p rfl (fun _ h => by cases h)
  · exact .refl h

theorem good_fetchNotes (h : Sound host w) (p : P) (succeeds : Bool) :
    Good host w (w.fetchNotes host p succeeds) := by
  unfold World.fetchNotes
  split
  case h_1 k hk =>
    obtain ⟨hgood, hcalls, -⟩ := fetch_spec h (host p)
    split
    · exact hgood.trans (good_goOn hgood.1 (by rw [hcalls, hk]; rfl) rfl)
    · exact good_goOn h (by rw [hk]; rfl) rfl
  case h_2 => exact .refl h

theorem good_mergeNotes (env : NotesMerge) (h : Sound host w) (p : P) (base : Option Nat)
    (attempt : MergeAttempt) : Good host w (w.mergeNotes env host p base attempt) := by
  unfold World.mergeNotes
  split
  case h_1 k hk =>
    split
    all_goals
      rename_i w₁ hmerge
      obtain ⟨hgood, hcalls, -⟩ :=
        mergeTrackingNotes_spec env h (host p) base attempt (congrArg Prod.snd hmerge)
    · exact hgood.trans (good_end hgood.1 p rfl (fun _ h => by cases h))
    · exact hgood.trans (good_goOn hgood.1 (by rw [hcalls, hk]; rfl) rfl)
  case h_2 => exact .refl h

theorem good_step (env : NotesMerge) (h : Sound host w) (e : Event M P) :
    Good host w (step env host w e) := by
  cases e with
  | append m target records => exact good_append h m target records
  | fetch m => exact (fetch_spec h m).1
  | merge m base attempt => exact (mergeTrackingNotes_spec env h m base attempt rfl).1
  | begin p nested resolves => exact good_begin h p nested resolves
  | fetchNotes p succeeds => exact good_fetchNotes h p succeeds
  | mergeNotes p base attempt => exact good_mergeNotes env h p base attempt
  | push p attempt => exact good_push h p attempt
  | kill p => exact good_end h p rfl (fun _ h => by cases h)

/-! ## Runs -/

variable {env : NotesMerge}
variable {n : Nat} {e : Event M P}

theorem good_run (env : NotesMerge) (h : Sound host w) (labels : List (Event M P)) :
    Good host w (run (step env host) w labels) :=
  run_inv (fun _ e hgood _ => hgood.trans (good_step env hgood.1 e)) (.refl h)
    (eachStep_true _ labels)

/-- The call whose step an event is. -/
def Event.caller? : Event M P → Option P
  | .begin p .. | .fetchNotes p _ | .mergeNotes p .. | .push p _ | .kill p => some p
  | _ => none

/-- A step leaves the calls where they are, or moves the one it is of; to success only by a
    push that the remote took. -/
theorem step_cases (env : NotesMerge) (h : Sound host w) (e : Event M P) :
    (step env host w e).calls = w.calls ∨ ∃ q w₁ phase, e.caller? = some q
      ∧ w₁.calls = w.calls ∧ step env host w e = w₁.goto q phase
      ∧ ∀ n, phase = .published n → ∃ oid, w.refs (.working (host q)) = some oid ∧ w.Takes oid
        ∧ w₁ = w.setRef .remote oid := by
  cases e with
  | append m target records => exact .inl rfl
  | fetch m => exact .inl (fetch_spec h m).2.1
  | merge m base attempt => exact .inl (mergeTrackingNotes_spec env h m base attempt rfl).2.1
  | begin q nested resolves =>
    rw [step, World.begin]
    split
    · exact .inl rfl
    · refine .inr ⟨q, w, _, rfl, rfl, rfl, ?_⟩
      intro n hn
      split_ifs at hn
  | fetchNotes q succeeds =>
    rw [step, World.fetchNotes]
    split
    · refine .inr ⟨q, _, _, rfl, ?_, rfl, fun _ => Phase.noConfusion⟩
      split
      · exact (fetch_spec h _).2.1
      · rfl
    · exact .inl rfl
  | mergeNotes q base attempt =>
    rw [step, World.mergeNotes]
    split
    · split
      all_goals
        rename_i hmerge
        have hcalls := (mergeTrackingNotes_spec env h _ base attempt (congrArg Prod.snd hmerge)).2.1
        exact .inr ⟨q, _, _, rfl, hcalls, rfl, fun _ => Phase.noConfusion⟩
    · exact .inl rfl
  | push q attempt =>
    rw [step]
    rcases push_cases host w q attempt with ⟨k, oid, -, hoid, htakes, heq⟩ |
      ⟨k, oid, -, -, -, heq⟩ | ⟨k, -, heq, -⟩ | heq <;> rw [heq]
    · exact .inr ⟨q, w.setRef .remote oid, _, rfl, rfl, rfl, fun _ _ => ⟨oid, hoid, htakes, rfl⟩⟩
    · refine .inr ⟨q, w, _, rfl, rfl, rfl, fun n hn => ?_⟩
      split at hn <;> cases hn
    · exact .inr ⟨q, w, _, rfl, rfl, rfl, fun _ => Phase.noConfusion⟩
    · exact .inl rfl
  | kill q => exact .inr ⟨q, w, _, rfl, rfl, rfl, fun _ => Phase.noConfusion⟩

theorem calls_step_of_ne (env : NotesMerge) (h : Sound host w)
    (hne : e.caller? ≠ some p) : (step env host w e).calls p = w.calls p := by
  rcases step_cases env h e with hsame | ⟨q, w₁, phase, hcaller, hcalls, heq, -⟩
  · rw [hsame]
  · rw [heq, calls_goto_of_ne w₁ fun hq => hne (by rw [hq, hcaller]), hcalls]

/-- Each side has what the other one had. -/
def Exchanged (host : P → M) (w w' : World M P) (p : P) : Prop :=
  w.lines (w.refs (.working (host p))) ⊆ w'.lines (w'.refs .remote)
    ∧ w.lines (w.refs .remote) ⊆ w'.lines (w'.refs (.working (host p)))

/-- A push that the remote takes. -/
theorem exchanged_of_push {w₁ : World M P} (h : Sound host w) (hgood : Good host w w₁) {oid : Nat}
    (hoid : w₁.refs (.working (host p)) = some oid) (htakes : w₁.Takes oid)
    (phase : Phase) : Exchanged host w ((w₁.setRef .remote oid).goto p phase) p := by
  have hlines := hgood.lines h (.working (host p))
  refine ⟨?_, (hgood.lines h .remote).trans ?_⟩
  · show _ ⊆ w₁.lines ((w₁.setRef .remote oid).refs .remote)
    rw [refs_setRef_self, ← hoid]
    exact hlines
  · -- the remote's commit is behind the one that was pushed
    show _ ⊆ w₁.lines ((w₁.setRef .remote oid).refs (.working (host p)))
    rw [refs_setRef_of_ne w₁ (by simp), hoid]
    exact Behind.lines (b := some oid) (fun r hr => ⟨oid, rfl, htakes r hr⟩) hgood.1

theorem exchanged_of_published (h : Sound host w) (hp : ∀ n, w.calls p ≠ .published n)
    (labels : List (Event M P)) (hn : (run (step env host) w labels).calls p = .published n) :
    Exchanged host w (run (step env host) w labels) p := by
  -- by induction on the run: the push that brings the report exchanges, later steps keep it
  induction labels using List.reverseRecOn generalizing n with
  | nil => exact absurd hn (hp n)
  | append_singleton labels e ih =>
    have hgood := good_run env h labels
    rw [run_append, run_cons, run_nil] at hn ⊢
    have hkeep : ∀ {n}, (run (step env host) w labels).calls p = .published n →
        Exchanged host w (step env host (run (step env host) w labels) e) p := fun hsame =>
      have hstep := good_step env hgood.1 e
      ⟨(ih hsame).1.trans (hstep.lines hgood.1 _), (ih hsame).2.trans (hstep.lines hgood.1 _)⟩
    rcases step_cases env hgood.1 e with hsame | ⟨q, w₁, phase, -, hcalls, heq, hpush⟩
    · exact hkeep (hsame ▸ hn)
    · by_cases hq : p = q
      · subst hq
        rw [heq, calls_goto_self] at hn
        obtain ⟨oid, hoid, htakes, rfl⟩ := hpush n hn
        rw [heq]
        exact exchanged_of_push h hgood hoid htakes phase
      · rw [heq, calls_goto_of_ne w₁ hq, hcalls] at hn
        exact hkeep hn

/-- The steps of a run that were not the call's and moved the remote's ref. -/
def remoteMoves (env : NotesMerge) (host : P → M) (p : P) :
    World M P → List (Event M P) → Nat
  | _, [] => 0
  | w, e :: labels =>
    (if e.caller? = some p ∨ (step env host w e).refs .remote = w.refs .remote then 0 else 1)
      + remoteMoves env host p (step env host w e) labels

/-- Git works for a call: its fetches succeed, its merges run unless the lock keeps them from
    it, its pushes reach the remote. -/
def Works (p : P) (w : World M P) : Event M P → Prop
  | .fetchNotes q succeeds => q = p → succeeds = true ∨ w.refs .remote = none
  | .mergeNotes q _ attempt => q = p → attempt ≠ .fails
  | .push q attempt => q = p → attempt = .arrives
  | _ => True

/-- The attempts a call has lost are paid for by others' moves of the remote's ref.  After its
    fetch the one it is at is too, or else the call has what the remote has. -/
structure Paid (host : P → M) (p : P) (n : Nat) (w : World M P) : Prop where
  attempt_le : ∀ k, (w.calls p).attempt? = some k ∨ w.calls p = .published k → k ≤ n + 1
  merging : ∀ k, w.calls p = .merging k →
    k ≤ n ∨ Behind w.history (w.refs .remote) (w.refs (.tracking (host p)))
  pushing : ∀ k, w.calls p = .pushing k →
    k ≤ n ∨ Behind w.history (w.refs .remote) (w.refs (.working (host p)))
  failed : w.calls p = .failed → MAX_PUSH_ATTEMPTS ≤ n

omit [DecidableEq M] [DecidableEq P] in
theorem Paid.of_ended (hattempt : (w.calls p).attempt? = none)
    (hpublished : ∀ k, w.calls p = .published k → k ≤ n + 1)
    (hfailed : w.calls p = .failed → MAX_PUSH_ATTEMPTS ≤ n) : Paid host p n w where
  attempt_le k hk := hk.elim (fun hk => by rw [hattempt] at hk; cases hk) (hpublished k)
  merging k hk := by rw [hk] at hattempt; cases hattempt
  pushing k hk := by rw [hk] at hattempt; cases hattempt
  failed := hfailed

omit [DecidableEq M] [DecidableEq P] in
/-- A step that leaves a call where it is. -/
theorem Paid.of_same (hpaid : Paid host p n w) (h : Sound host w) (hgood : Good host w w')
    (hcalls : w'.calls p = w.calls p) :
    Paid host p (n + if w'.refs .remote = w.refs .remote then 0 else 1) w' := by
  have hle : ∀ k, (w.calls p).attempt? = some k ∨ w.calls p = .published k → k ≤ n + 1 :=
    hpaid.attempt_le
  split
  case isTrue hremote =>
    -- what covered the remote's commit still does, refs moving forward only
    have hbehind : ∀ ref, Behind w.history (w.refs .remote) (w.refs ref) →
        Behind w'.history (w'.refs .remote) (w'.refs ref) := fun ref href =>
      hremote ▸ (href.mono hgood.2.history (h.ref_lt ref)).trans (hgood.2.refs ref)
    exact ⟨hcalls ▸ hle, fun k hk => (hpaid.merging k (hcalls ▸ hk)).imp_right (hbehind _),
      fun k hk => (hpaid.pushing k (hcalls ▸ hk)).imp_right (hbehind _),
      fun hk => hpaid.failed (hcalls ▸ hk)⟩
  case isFalse =>
    refine ⟨fun k hk => (hle k (hcalls ▸ hk)).trans (Nat.le_succ _), fun k hk => .inl ?_,
      fun k hk => .inl ?_, fun hk => (hpaid.failed (hcalls ▸ hk)).trans (Nat.le_succ _)⟩
    · exact hle k (.inl (by rw [← hcalls, hk]; rfl))
    · exact hle k (.inl (by rw [← hcalls, hk]; rfl))

omit [DecidableEq M] in
theorem Paid.goto_ended (hattempt : phase.attempt? = none)
    (hpublished : ∀ k, phase = .published k → k ≤ n + 1)
    (hfailed : phase = .failed → MAX_PUSH_ATTEMPTS ≤ n) : Paid host p n (w.goto p phase) :=
  .of_ended (by rwa [calls_goto_self]) (by simpa using hpublished) (by simpa using hfailed)

omit [DecidableEq M] in
theorem Paid.goto_fetching {k : Nat} (hk : k ≤ n + 1) : Paid host p n (w.goto p (.fetching k)) :=
  ⟨by simpa [Phase.attempt?] using hk, by simp, by simp, by simp⟩

omit [DecidableEq M] in
theorem Paid.begin (hpaid : Paid host p n w) (nested resolves : Bool) :
    Paid host p n (w.begin host p nested resolves) := by
  rw [World.begin]
  split
  · exact hpaid
  · split_ifs
    · exact .goto_ended rfl (fun _ h => by cases h) (fun h => by cases h)
    · exact .goto_ended rfl (fun _ h => by cases h) (fun h => by cases h)
    · exact .goto_fetching (Nat.succ_le_succ (Nat.zero_le n))
    · exact .goto_ended rfl (fun _ h => by cases h) (fun h => by cases h)

theorem Paid.fetchNotes (hpaid : Paid host p n w) (h : Sound host w) {succeeds : Bool}
    (hworks : succeeds = true ∨ w.refs .remote = none) :
    Paid host p n (w.fetchNotes host p succeeds) := by
  rw [World.fetchNotes]
  split
  case h_1 k hk =>
    have hle := hpaid.attempt_le k (.inl (by rw [hk]; rfl))
    refine ⟨by simpa [Phase.attempt?] using hle, fun k' hk' => .inr ?_, by simp, by simp⟩
    -- what the remote has is fetched, or it has nothing
    rcases hworks with rfl | hnone
    · exact (fetch_spec h (host p)).2.2
    · have hfetch : w.fetch (host p) = w := by rw [World.fetch, hnone]
      rw [hfetch, ite_self]
      exact fun r hr => by cases hnone.symm.trans hr
  case h_2 => exact hpaid

theorem Paid.mergeNotes (hpaid : Paid host p n w) (h : Sound host w) {base : Option Nat}
    {attempt : MergeAttempt} (hworks : attempt ≠ .fails) :
    Paid host p n (w.mergeNotes env host p base attempt) := by
  rw [World.mergeNotes]
  split
  case h_1 k hk =>
    have hle := hpaid.attempt_le k (.inl (by rw [hk]; rfl))
    split
    case h_1 => exact .goto_ended rfl (fun _ h => by cases h) (fun h => by cases h)
    case h_2 w₁ hnot hmerge =>
      obtain ⟨hgood, -, hremote, hbehind⟩ :=
        mergeTrackingNotes_spec env h (host p) base attempt (congrArg Prod.snd hmerge)
      have hruns : attempt = .runs := by
        cases attempt with
        | runs => rfl
        | fails => exact absurd rfl hworks
        | locked => exact absurd (congrArg Prod.fst hmerge).symm hnot
      -- the merge carries what was fetched
      refine ⟨by simpa [Phase.attempt?] using hle, by simp, fun k' hk' => ?_, by simp⟩
      obtain rfl := Phase.pushing.inj ((calls_goto_self w₁ p _).symm.trans hk')
      refine (hpaid.merging k hk).imp_right fun hb => ?_
      show Behind w₁.history (w₁.refs .remote) (w₁.refs (.working (host p)))
      rw [hremote]
      exact (hb.mono hgood.2.history (h.ref_lt _)).trans (hbehind hruns)
  case h_2 => exact hpaid

theorem Paid.push (hpaid : Paid host p n w) (h : Sound host w) :
    Paid host p n (w.push host p .arrives) := by
  rcases push_cases host w p .arrives with ⟨k, oid, hk, -, -, heq⟩ |
    ⟨k, oid, hk, hoid, hnot, heq⟩ | ⟨k, hk, -, hnone⟩ | heq
  · rw [heq]
    exact .goto_ended rfl (fun k' hk' => Phase.published.inj hk' ▸
      hpaid.attempt_le k (.inl (by rw [hk]; rfl))) (fun h => by cases h)
  · -- the remote has what the call has not, so it moved after the fetch
    have hle : k ≤ n := by
      refine (hpaid.pushing k hk).resolve_right fun hbehind => hnot fun r hr => ?_
      obtain ⟨r', hr', hreach⟩ := hbehind r hr
      exact Option.some.inj (hoid.symm.trans hr') ▸ hreach
    have hmax := (h.attempt_le p k (.inl (by rw [hk]; rfl))).2
    rw [heq]
    split
    · exact .goto_fetching (Nat.succ_le_succ hle)
    · exact .goto_ended rfl (fun _ h => by cases h) fun _ => by omega
  · exact absurd (hnone rfl) (h.has_notes p k (by rw [hk]; rfl))
  · rwa [heq]

/-- A call's own step, where git works for it. -/
theorem Paid.of_own (hpaid : Paid host p n w) (h : Sound host w) (hcaller : e.caller? = some p)
    (hworks : Works p w e) : Paid host p n (step env host w e) := by
  cases e with
  | append m target records => cases hcaller
  | fetch m => cases hcaller
  | merge m base attempt => cases hcaller
  | begin q nested resolves =>
    obtain rfl := Option.some.inj hcaller
    exact hpaid.begin nested resolves
  | fetchNotes q succeeds =>
    obtain rfl := Option.some.inj hcaller
    exact hpaid.fetchNotes h (hworks rfl)
  | mergeNotes q base attempt =>
    obtain rfl := Option.some.inj hcaller
    exact hpaid.mergeNotes h (hworks rfl)
  | push q attempt =>
    obtain rfl := Option.some.inj hcaller
    obtain rfl : attempt = .arrives := hworks rfl
    exact hpaid.push h
  | kill q =>
    obtain rfl := Option.some.inj hcaller
    exact .goto_ended rfl (fun _ h => by cases h) (fun h => by cases h)

theorem Paid.step (hpaid : Paid host p n w) (h : Sound host w) (hworks : Works p w e) :
    Paid host p (n + if e.caller? = some p ∨ (step env host w e).refs .remote = w.refs .remote
      then 0 else 1) (step env host w e) := by
  by_cases hcaller : e.caller? = some p
  · rw [if_pos (.inl hcaller)]
    exact hpaid.of_own h hcaller hworks
  · simpa only [hcaller, false_or] using
      hpaid.of_same h (good_step env h e) (calls_step_of_ne env h hcaller)

theorem paid_run (hpaid : Paid host p n w) (h : Sound host w) {labels : List (Event M P)}
    (hworks : EachStep (step env host) (Works p) w labels) :
    Paid host p (n + remoteMoves env host p w labels) (run (step env host) w labels) := by
  induction labels generalizing w n with
  | nil => exact hpaid
  | cons e labels ih =>
    rw [remoteMoves, ← Nat.add_assoc]
    exact ih (hpaid.step h hworks.1) (good_step env h e).1 hworks.2

/-- A call that git works for loses each race to another call's push that landed after it began,
    and fails only where `MAX_PUSH_ATTEMPTS` of them did. -/
theorem lostRaces_le {before labels : List (Event M P)}
    (hstart : (run (step env host) World.initial before).calls p = .fetching 1)
    (hworks : EachStep (step env host) (Works p) (run (step env host) World.initial before) labels)
    :
    let w₀ := run (step env host) World.initial before
    let w := run (step env host) w₀ labels
    (∀ k, (w.calls p).attempt? = some k ∨ w.calls p = .published k →
        k ≤ remoteMoves env host p w₀ labels + 1)
      ∧ (w.calls p = .failed → MAX_PUSH_ATTEMPTS ≤ remoteMoves env host p w₀ labels) := by
  have hpaid : Paid host p 0 (run (step env host) World.initial before) :=
    ⟨by simp [hstart, Phase.attempt?], by simp [hstart], by simp [hstart], by simp [hstart]⟩
  have h := paid_run hpaid (good_run env sound_initial before).1 hworks
  rw [Nat.zero_add] at h
  exact ⟨h.attempt_le, h.failed⟩

/-- Two clones publish at once: the call that loses the race takes a second push. -/
theorem lostRaces_le_two_clones :
    let env : NotesMerge := ⟨fun ours theirs commit => ours commit ++ theirs commit,
      fun _ _ _ _ => List.mem_append⟩
    let w₀ := run (step env id) World.initial [.append true "c" [], .append false "c" [],
      .begin true false true, .begin false false true]
    let labels : List (Event Bool Bool) := [.fetchNotes true true, .mergeNotes true none .runs,
      .fetchNotes false true, .mergeNotes false none .runs, .push false .arrives,
      .push true .arrives, .fetchNotes true true, .mergeNotes true none .runs, .push true .arrives]
    let w := run (step env id) w₀ labels
    w.calls true = .published 2 ∧ remoteMoves env id true w₀ labels = 1
      ∧ (∀ k, (w.calls true).attempt? = some k ∨ w.calls true = .published k →
        k ≤ remoteMoves env id true w₀ labels + 1)
      ∧ (w.calls true = .failed → MAX_PUSH_ATTEMPTS ≤ remoteMoves env id true w₀ labels) := by
  refine ⟨by decide, by decide, lostRaces_le (by decide) ?_⟩
  exact ⟨fun _ => .inl rfl, fun _ => nofun, nofun, nofun, nofun, fun _ => rfl,
    fun _ => .inl rfl, fun _ => nofun, fun _ => rfl, trivial⟩

end Publish
end Carrier
end Inkentry
