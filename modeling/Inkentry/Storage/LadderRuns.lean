/-
  Inkentry.Storage.LadderRuns

  What concurrent openers do to one store.  A transaction that changes the store
  takes it exactly one step on, so with a list that counts up from the store's
  version the content is the steps up to the recorded version, each done once
  and in order, at every point of every interleaving.

  An opener that returns `Ok` leaves the store at the target.  The other way
  round it is so only for an opener that is alone: one whose own statement fails
  says so, although another opener may have brought the store to the target.
-/

import Inkentry.Storage.MigrationLadder

namespace Inkentry
namespace MigrationLadder

variable {σ ι : Type*}

/-! ## Steps that count up -/

variable {steps : List (MigrationStep σ)}

/-- Versions one after the other, from `first` on. -/
def Contiguous : ℤ → List (MigrationStep σ) → Prop
  | _, [] => True
  | first, step :: rest => step.1 = first ∧ Contiguous (first + 1) rest

theorem contiguous_append {front rest : List (MigrationStep σ)} : ∀ {first : ℤ},
    Contiguous first (front ++ rest) ↔ Contiguous first front ∧ Contiguous (first + front.length) rest := by
  induction front with
  | nil => simp [Contiguous]
  | cons step front ih =>
    intro first
    have hlen : first + 1 + (front.length : ℤ) = first + ((step :: front).length : ℤ) := by
      rw [List.length_cons]
      omega
    rw [List.cons_append, Contiguous, Contiguous, ih, hlen, and_assoc]

theorem Contiguous.bounds : ∀ {first : ℤ}, Contiguous first steps →
    ∀ step ∈ steps, first ≤ step.1 ∧ step.1 < first + steps.length := by
  induction steps with
  | nil => exact fun _ _ h => absurd h List.not_mem_nil
  | cons head rest ih =>
    intro first h step hmem
    rw [List.length_cons]
    rcases List.mem_cons.mp hmem with rfl | hmem
    · have := h.1
      omega
    · have := ih h.2 step hmem
      omega

theorem Contiguous.exists_last {front : List (MigrationStep σ)} {first : ℤ} (h : Contiguous first front)
    (hne : front ≠ []) : ∃ step ∈ front, step.1 = first + front.length - 1 := by
  induction front generalizing first with
  | nil => exact absurd rfl hne
  | cons head rest ih =>
    rw [List.length_cons]
    cases rest with
    | nil => exact ⟨head, List.mem_cons_self, by rw [h.1, List.length_nil]; omega⟩
    | cons head' rest =>
      obtain ⟨step, hmem, hstep⟩ := ih h.2 (List.cons_ne_nil _ _)
      exact ⟨step, List.mem_cons_of_mem _ hmem, by rw [hstep]; omega⟩

/-- The steps that take a store from one version to another. -/
def between (steps : List (MigrationStep σ)) (low high : ℤ) : List (MigrationStep σ) :=
  steps.filter fun step => low < step.1 ∧ step.1 ≤ high

/-- What the bodies make of a content, one after the other. -/
def applyAll (steps : List (MigrationStep σ)) (content : σ) : Option σ :=
  steps.foldlM (fun content step => step.2 content) content

theorem between_succ {front rest : List (MigrationStep σ)} {step : MigrationStep σ} {first low high : ℤ}
    (h : Contiguous first (front ++ step :: rest)) (hstep : step.1 = high + 1) (hlow : low ≤ high) :
    between (front ++ step :: rest) low (high + 1)
      = between (front ++ step :: rest) low high ++ [step] := by
  obtain ⟨hfront, hhead, hrest⟩ := contiguous_append.mp h
  -- the list counts up, so only the step itself is past `high` and not past `high + 1`
  have hbefore : ∀ s ∈ front, s.1 ≤ high := fun s hs => by
    have := hfront.bounds s hs
    omega
  have hafter : ∀ s ∈ rest, high + 1 < s.1 := fun s hs => by
    have := hrest.bounds s hs
    omega
  have hfilter : between front low (high + 1) = between front low high := by
    refine List.filter_congr fun s hs => ?_
    have := hbefore s hs
    simp only [decide_eq_decide]
    omega
  have hnone : ∀ bound, bound ≤ high + 1 → between rest low bound = [] := fun bound hbound => by
    refine List.filter_eq_nil_iff.mpr fun s hs => ?_
    have := hafter s hs
    simp only [decide_eq_true_eq]
    omega
  have hin : between [step] low (high + 1) = [step] := by
    rw [between, List.filter_cons_of_pos (by simp only [decide_eq_true_eq]; omega), List.filter_nil]
  have hout : between [step] low high = [] := by
    rw [between, List.filter_cons_of_neg (by simp only [decide_eq_true_eq]; omega), List.filter_nil]
  have hsplit : ∀ bound, between (front ++ step :: rest) low bound
      = between front low bound ++ (between [step] low bound ++ between rest low bound) := fun bound => by
    rw [between, between, between, between, ← List.filter_append, ← List.filter_append,
      List.singleton_append]
  rw [hsplit, hsplit, hfilter, hin, hout, hnone (high + 1) (Int.le_refl _), hnone high (by omega),
    List.append_nil, List.append_nil, List.append_nil]

theorem applyAll_concat {step : MigrationStep σ} {content c c' : σ}
    (h : applyAll steps content = some c) (hstep : step.2 c = some c') :
    applyAll (steps ++ [step]) content = some c' := by
  rw [applyAll, List.foldlM_append]
  rw [applyAll] at h
  rw [h]
  simpa using hstep

/-! ## One statement -/

section Acted

variable [DecidableEq ι]

/-- The step an opener is in a transaction for. -/
def Opener.climb? : Opener σ → Option (Climb σ)
  | .began climb | .running climb | .stamping climb _ | .committing climb _ => some climb
  | _ => none

/-- What a statement can make of an opener and of the world it is in. -/
inductive Acted (ladder : Ladder σ) (w : World σ ι) (i : ι) : Bool → Opener σ → World σ ι → Prop where
  -- an opener that is at the end, that waits for the lock, or that could not read the version
  | stayed {ok : Bool} {opener : Opener σ} : Acted ladder w i ok opener w
  | found : Acted ladder w i true .idle (w.put i (.climbing w.store.version w.store.version ladder.steps))
  | finished {ok : Bool} {foundVersion atVersion : ℤ} {rest : List (MigrationStep σ)}
      (hrest : ∀ step ∈ rest.head?, ladder.targetVersion < step.1) :
      Acted ladder w i ok (.climbing foundVersion atVersion rest)
        (w.put i (ladder.finish foundVersion atVersion))
  | skipped {ok : Bool} {foundVersion atVersion : ℤ} {step : MigrationStep σ}
      {rest : List (MigrationStep σ)} (hle : step.1 ≤ foundVersion) :
      Acted ladder w i ok (.climbing foundVersion atVersion (step :: rest))
        (w.put i (.climbing foundVersion atVersion rest))
  | refused (climb : Climb σ) (hfound : climb.foundVersion < climb.version)
      (htarget : climb.version ≤ ladder.targetVersion) :
      Acted ladder w i false
        (.climbing climb.foundVersion climb.atVersion ((climb.version, climb.body) :: climb.rest))
        (w.put i (.done none (.error (.locking climb.version))))
  | locked (climb : Climb σ) (hfound : climb.foundVersion < climb.version)
      (htarget : climb.version ≤ ladder.targetVersion) (hfree : w.lock = none) :
      Acted ladder w i true
        (.climbing climb.foundVersion climb.atVersion ((climb.version, climb.body) :: climb.rest))
        { w.put i (.began climb) with lock := some i }
  -- another opener has done the step since
  | outrun {climb : Climb σ} (hle : climb.version ≤ w.store.version) :
      Acted ladder w i true (.began climb) (w.put i (.committing climb w.store))
  | read {climb : Climb σ} (hlt : w.store.version < climb.version) :
      Acted ladder w i true (.began climb) (w.put i (.running climb))
  | ran {climb : Climb σ} {content : σ} (hbody : climb.body w.store.content = some content) :
      Acted ladder w i true (.running climb) (w.put i (.stamping climb content))
  | stamped {climb : Climb σ} {content : σ} :
      Acted ladder w i true (.stamping climb content) (w.put i (.committing climb ⟨climb.version, content⟩))
  | committed {climb : Climb σ} {txn : Store σ} :
      Acted ladder w i true (.committing climb txn)
        (w.close i txn (.climbing climb.foundVersion climb.version climb.rest))
  | uncommitted {climb : Climb σ} {txn : Store σ} :
      Acted ladder w i false (.committing climb txn)
        (w.close i w.store (.done none (.error (.committing climb.version))))
  | rolledBack {ok : Bool} {opener : Opener σ} {climb : Climb σ} {cause : FailedIn}
      (hclimb : opener.climb? = some climb)
      (hcause : ok = true → cause = .body ∧ climb.body w.store.content = none) :
      Acted ladder w i ok opener (w.rollback i climb cause)

theorem act_acted (ladder : Ladder σ) (w : World σ ι) (i : ι) (ok : Bool) :
    Acted ladder w i ok (w.openers i) (w.act ladder i ok) := by
  cases hphase : w.openers i with
  | idle =>
    simp only [World.act, hphase]
    cases ok with
    | true => exact .found
    | false => exact .stayed
  | climbing foundVersion atVersion rest =>
    cases rest with
    | nil =>
      simp only [World.act, hphase]
      exact .finished fun _ hmem => by cases hmem
    | cons step rest =>
      simp only [World.act, hphase]
      -- the guards of the loop, in its order
      by_cases hskip : step.1 ≤ foundVersion
      · rw [if_pos hskip]
        exact .skipped hskip
      rw [if_neg hskip]
      by_cases hpast : ladder.targetVersion < step.1
      · rw [if_pos hpast]
        exact .finished fun _ hmem => by cases hmem; exact hpast
      rw [if_neg hpast]
      have hfound := Int.not_le.mp hskip
      have htarget := Int.not_lt.mp hpast
      cases ok with
      | false => exact .refused ⟨foundVersion, atVersion, step.1, step.2, rest⟩ hfound htarget
      | true =>
        cases hlock : w.lock with
        | some j => exact .stayed
        | none => exact .locked ⟨foundVersion, atVersion, step.1, step.2, rest⟩ hfound htarget hlock
  | began climb =>
    simp only [World.act, hphase]
    cases ok with
    | false => exact .rolledBack rfl nofun
    | true =>
      rw [if_neg Bool.noConfusion]
      by_cases hle : climb.version ≤ w.store.version
      · rw [if_pos hle]
        exact .outrun hle
      · rw [if_neg hle]
        exact .read (Int.not_le.mp hle)
  | running climb =>
    simp only [World.act, hphase]
    cases hbody : climb.body w.store.content with
    | none => exact .rolledBack rfl fun _ => ⟨rfl, hbody⟩
    | some content =>
      cases ok with
      | true => exact .ran hbody
      | false => exact .rolledBack rfl nofun
  | stamping climb content =>
    simp only [World.act, hphase]
    cases ok with
    | true => exact .stamped
    | false => exact .rolledBack rfl nofun
  | committing climb txn =>
    simp only [World.act, hphase]
    cases ok with
    | true => exact .committed
    | false => exact .uncommitted
  | done printed result =>
    simp only [World.act, hphase]
    exact .stayed
  | crashed =>
    simp only [World.act, hphase]
    exact .stayed

end Acted

/-! ## Where an opener stands -/

variable {ladder : Ladder σ} {start : Store σ} {first : ℤ}
variable {store : Store σ} {climb : Climb σ}
variable {rest : List (MigrationStep σ)}

/-- An opener has the steps before `rest` behind it, up to `atVersion`. -/
structure Place (ladder : Ladder σ) (start store : Store σ) (foundVersion atVersion : ℤ)
    (rest : List (MigrationStep σ)) : Prop where
  start_le : start.version ≤ foundVersion
  found_le : foundVersion ≤ atVersion
  at_le : atVersion ≤ store.version
  at_target : atVersion = foundVersion ∨ atVersion ≤ ladder.targetVersion
  behind : ∃ front, ladder.steps = front ++ rest ∧ (∀ step ∈ front, step.1 ≤ atVersion)
    ∧ (atVersion = foundVersion ∨ ∃ step ∈ front, step.1 = atVersion)

/-- An opener inside the transaction of a step. -/
structure Climb.At (ladder : Ladder σ) (start store : Store σ) (climb : Climb σ) : Prop where
  place : Place ladder start store climb.foundVersion climb.atVersion
    ((climb.version, climb.body) :: climb.rest)
  found_lt : climb.foundVersion < climb.version
  le_target : climb.version ≤ ladder.targetVersion

theorem Place.next_eq {foundVersion atVersion version : ℤ} {body : σ → Option σ}
    (hsteps : Contiguous first ladder.steps) (hfirst : first ≤ start.version + 1)
    (h : Place ladder start store foundVersion atVersion ((version, body) :: rest))
    (hfound : foundVersion < version) : version = atVersion + 1 := by
  obtain ⟨front, hsplit, hbehind, hat⟩ := h.behind
  rw [hsplit] at hsteps
  obtain ⟨hfront, hhead, -⟩ := contiguous_append.mp hsteps
  have hstart := h.start_le
  have hle := h.found_le
  have hlow : atVersion < version := by
    rcases hat with heq | ⟨step, hmem, heq⟩
    · omega
    · have := hfront.bounds step hmem
      omega
  -- with nothing behind it, the first version decides; else the last one behind it does
  rcases List.eq_nil_or_concat front with rfl | ⟨front', last, rfl⟩
  · rw [List.length_nil] at hhead
    omega
  · obtain ⟨step, hmem, hstep⟩ := hfront.exists_last (by simp)
    have := hbehind step hmem
    omega

theorem Climb.At.version_eq (hsteps : Contiguous first ladder.steps)
    (hfirst : first ≤ start.version + 1) (h : climb.At ladder start store)
    (hlt : store.version < climb.version) : climb.version = store.version + 1 := by
  have hnext := h.place.next_eq hsteps hfirst h.found_lt
  have hle := h.place.at_le
  omega

/-- What an opener relies on. -/
def Opener.Ok (ladder : Ladder σ) (start store : Store σ) : Opener σ → Prop
  | .idle => True
  | .climbing foundVersion atVersion rest => Place ladder start store foundVersion atVersion rest
  | .began climb => climb.At ladder start store
  | .running climb => climb.At ladder start store ∧ store.version < climb.version
  | .stamping climb content => climb.At ladder start store ∧ store.version < climb.version
    ∧ climb.body store.content = some content
  | .committing climb txn => climb.At ladder start store
    ∧ (txn = store ∧ climb.version ≤ store.version
      ∨ txn.version = climb.version ∧ store.version < climb.version
        ∧ climb.body store.content = some txn.content)
  | .done _ (.ok ()) => store.version = ladder.targetVersion
  | .done _ (.error (.gap atVersion)) => atVersion ≠ ladder.targetVersion
    ∧ (ladder.targetVersion < atVersion ∨ ∀ step ∈ ladder.steps, step.1 ≠ ladder.targetVersion)
  | .done _ (.error _) => True
  | .crashed => True

/-- The opener has the write lock. -/
def Opener.Holds : Opener σ → Prop
  | .began _ | .running _ | .stamping _ _ | .committing _ _ => True
  | _ => False

/-- What every interleaving keeps. -/
structure Inv (ladder : Ladder σ) (start : Store σ) (w : World σ ι) : Prop where
  version_eq : w.store.version
    = start.version + (between ladder.steps start.version w.store.version).length
  content_eq : applyAll (between ladder.steps start.version w.store.version) start.content
    = some w.store.content
  le_target : w.store.version = start.version ∨ w.store.version ≤ ladder.targetVersion
  locked : ∀ i, (w.openers i).Holds → w.lock = some i
  openers : ∀ i, (w.openers i).Ok ladder start w.store

theorem inv_start (ladder : Ladder σ) (start : Store σ) :
    Inv ladder start (World.start start : World σ ι) where
  version_eq := by
    have hnil : between ladder.steps start.version start.version = [] :=
      List.filter_eq_nil_iff.mpr fun step _ => by simp only [decide_eq_true_eq]; omega
    simp [World.start, hnil]
  content_eq := by
    have hnil : between ladder.steps start.version start.version = [] :=
      List.filter_eq_nil_iff.mpr fun step _ => by simp only [decide_eq_true_eq]; omega
    simp [World.start, hnil, applyAll]
  le_target := .inl rfl
  locked := fun _ h => h.elim
  openers := fun _ => trivial

variable [DecidableEq ι]
variable {w : World σ ι}
variable {foundVersion atVersion : ℤ} {i : ι}

/-- A step that leaves the store and gives one opener a place keeps the invariant. -/
theorem Inv.put (h : Inv ladder start w) (lock : Option ι) {opener : Opener σ}
    (hok : opener.Ok ladder start w.store) (hholds : opener.Holds → lock = some i)
    (hlock : ∀ j, j ≠ i → (w.openers j).Holds → lock = some j) :
    Inv ladder start ⟨w.store, lock, Function.update w.openers i opener⟩ where
  version_eq := h.version_eq
  content_eq := h.content_eq
  le_target := h.le_target
  locked := by
    intro j hj
    by_cases hji : j = i
    · subst hji
      simp only [Function.update_self] at hj
      exact hholds hj
    · simp only [Function.update_of_ne hji] at hj
      exact hlock j hji hj
  openers := by
    intro j
    by_cases hji : j = i
    · subst hji
      simp only [Function.update_self]
      exact hok
    · simp only [Function.update_of_ne hji]
      exact h.openers j

omit [DecidableEq ι] in
theorem Inv.eq_of_holds (h : Inv ladder start w) {i j : ι} (hi : (w.openers i).Holds)
    (hj : (w.openers j).Holds) : j = i :=
  Option.some_inj.mp ((h.locked j hj).symm.trans (h.locked i hi))

theorem Inv.close (h : Inv ladder start w) {opener : Opener σ} (hi : (w.openers i).Holds)
    (hok : opener.Ok ladder start w.store) (hholds : ¬ opener.Holds) :
    Inv ladder start (w.close i w.store opener) :=
  h.put none hok (fun hopener => absurd hopener hholds) fun _ hji hj => absurd (h.eq_of_holds hi hj) hji

theorem Climb.At.next {store txn : Store σ} (hsteps : Contiguous first ladder.steps)
    (hfirst : first ≤ start.version + 1) (h : climb.At ladder start store)
    (hle : climb.version ≤ txn.version) :
    Place ladder start txn climb.foundVersion climb.version climb.rest where
  start_le := h.place.start_le
  found_le := Int.le_of_lt h.found_lt
  at_le := hle
  at_target := .inr h.le_target
  behind := by
    obtain ⟨front, hsplit, hbehind, -⟩ := h.place.behind
    have hnext := h.place.next_eq hsteps hfirst h.found_lt
    refine ⟨front ++ [(climb.version, climb.body)], by rw [hsplit, List.append_assoc]; rfl, ?_,
      .inr ⟨(climb.version, climb.body), by simp, rfl⟩⟩
    intro step hmem
    rcases List.mem_append.mp hmem with hmem | hmem
    · have := hbehind step hmem
      omega
    · exact Int.le_of_eq (congrArg Prod.fst (List.mem_singleton.mp hmem))

/-- Who is not in a transaction does not mind that another opener takes the store on. -/
theorem Opener.Ok.mono {store txn : Store σ} {opener : Opener σ} (h : opener.Ok ladder start store)
    (hfree : ¬ opener.Holds) (hle : store.version ≤ txn.version)
    (hbelow : store.version ≠ ladder.targetVersion) : opener.Ok ladder start txn := by
  cases opener with
  | idle => trivial
  | climbing foundVersion atVersion rest =>
    have hplace : Place ladder start store foundVersion atVersion rest := h
    exact { hplace with at_le := Int.le_trans hplace.at_le hle }
  | began climb => exact absurd trivial hfree
  | running climb => exact absurd trivial hfree
  | stamping climb content => exact absurd trivial hfree
  | committing climb txn => exact absurd trivial hfree
  | done printed result =>
    cases result with
    | ok u => exact absurd h hbelow
    | error e => cases e <;> exact h
  | crashed => trivial

/-- A commit takes the store one step on. -/
theorem Inv.commit (h : Inv ladder start w) (hsteps : Contiguous first ladder.steps)
    (hfirst : first ≤ start.version + 1) {txn : Store σ} (hi : (w.openers i).Holds)
    (hclimb : climb.At ladder start w.store) (hversion : txn.version = climb.version)
    (hlt : w.store.version < climb.version)
    (hbody : climb.body w.store.content = some txn.content) :
    Inv ladder start
      (w.close i txn (.climbing climb.foundVersion climb.version climb.rest)) := by
  -- the step is the one past the store, so the steps done stay a stretch of the list
  have hnext := hclimb.version_eq hsteps hfirst hlt
  have hlow : start.version ≤ w.store.version := by
    have h₁ := hclimb.place.start_le
    have h₂ := hclimb.place.found_le
    have h₃ := hclimb.place.at_le
    omega
  have hbetween : between ladder.steps start.version txn.version
      = between ladder.steps start.version w.store.version ++ [(climb.version, climb.body)] := by
    obtain ⟨front, hsplit, -⟩ := hclimb.place.behind
    rw [hsplit] at hsteps
    have hsucc := between_succ hsteps hnext hlow
    rw [← hnext] at hsucc
    rw [hversion, hsplit]
    exact hsucc
  refine ⟨?_, ?_, .inr (hversion ▸ hclimb.le_target), ?_, ?_⟩
  · show txn.version = start.version + (between ladder.steps start.version txn.version).length
    have hold := h.version_eq
    rw [hbetween, List.length_append, List.length_singleton, hversion, hnext]
    omega
  · show applyAll (between ladder.steps start.version txn.version) start.content = some txn.content
    rw [hbetween]
    exact applyAll_concat h.content_eq hbody
  · intro j hj
    by_cases hji : j = i
    · subst hji
      simp only [World.close, Function.update_self] at hj
      exact hj.elim
    · simp only [World.close, Function.update_of_ne hji] at hj
      exact absurd (h.eq_of_holds hi hj) hji
  · intro j
    by_cases hji : j = i
    · subst hji
      simp only [World.close, Function.update_self]
      exact hclimb.next hsteps hfirst (Int.le_of_eq hversion.symm)
    · simp only [World.close, Function.update_of_ne hji]
      refine (h.openers j).mono (fun hj => hji (h.eq_of_holds hi hj)) (by omega) ?_
      have := hclimb.le_target
      omega

omit [DecidableEq ι] in
theorem Inv.start_le (h : Inv ladder start w) : start.version ≤ w.store.version := by
  have := h.version_eq
  omega

theorem Inv.keep (h : Inv ladder start w) {opener : Opener σ} (hok : opener.Ok ladder start w.store)
    (hholds : opener.Holds → (w.openers i).Holds) : Inv ladder start (w.put i opener) :=
  h.put w.lock hok (fun hopener => h.locked i (hholds hopener)) fun j _ hj => h.locked j hj

theorem Place.finish_ok (h : Place ladder start store foundVersion atVersion rest)
    (hstore : store.version = start.version ∨ store.version ≤ ladder.targetVersion)
    (hrest : ∀ step ∈ rest, ladder.targetVersion < step.1) :
    (ladder.finish foundVersion atVersion).Ok ladder start store := by
  have hstart := h.start_le
  have hfound := h.found_le
  have hat := h.at_le
  rw [Ladder.finish]
  by_cases heq : atVersion = ladder.targetVersion
  · rw [if_pos heq]
    show store.version = ladder.targetVersion
    omega
  · rw [if_neg heq]
    refine ⟨heq, ?_⟩
    by_cases hpast : ladder.targetVersion < atVersion
    · exact .inl hpast
    · refine .inr fun step hmem hstep => ?_
      obtain ⟨front, hsplit, hbehind, -⟩ := h.behind
      rw [hsplit] at hmem
      rcases List.mem_append.mp hmem with hmem | hmem
      · have := hbehind step hmem
        omega
      · have := hrest step hmem
        omega

theorem Place.skip {step : MigrationStep σ}
    (h : Place ladder start store foundVersion atVersion (step :: rest))
    (hle : step.1 ≤ foundVersion) : Place ladder start store foundVersion atVersion rest :=
  { h with
    behind := by
      obtain ⟨front, hsplit, hbehind, hat⟩ := h.behind
      have hfound := h.found_le
      refine ⟨front ++ [step], by rw [hsplit, List.append_assoc]; rfl, fun s hs => ?_,
        hat.imp_right fun ⟨s, hs, heq⟩ => ⟨s, List.mem_append_left _ hs, heq⟩⟩
      rcases List.mem_append.mp hs with hs | hs
      · exact hbehind s hs
      · rw [List.mem_singleton.mp hs]
        omega }

theorem Place.rest_past (h : Place ladder start store foundVersion atVersion rest)
    (hsteps : Contiguous first ladder.steps)
    (hrest : ∀ step ∈ rest.head?, ladder.targetVersion < step.1) :
    ∀ step ∈ rest, ladder.targetVersion < step.1 := by
  intro step hmem
  obtain ⟨front, hsplit, -⟩ := h.behind
  cases rest with
  | nil => exact absurd hmem List.not_mem_nil
  | cons head rest =>
    have hhead := hrest head rfl
    rw [hsplit] at hsteps
    obtain ⟨-, hat, hafter⟩ := contiguous_append.mp hsteps
    rcases List.mem_cons.mp hmem with rfl | hmem
    · exact hhead
    · have := hafter.bounds step hmem
      omega

theorem Opener.holds_of_climb? {opener : Opener σ} (h : opener.climb? = some climb) :
    opener.Holds := by
  cases opener with
  | began climb => trivial
  | running climb => trivial
  | stamping climb content => trivial
  | committing climb txn => trivial
  | _ => cases h

theorem Opener.Ok.at {opener : Opener σ} (h : opener.Ok ladder start store)
    (hclimb : opener.climb? = some climb) : climb.At ladder start store := by
  cases opener with
  | began climb' => cases hclimb; exact h
  | running climb' => cases hclimb; exact h.1
  | stamping climb' content => cases hclimb; exact h.1
  | committing climb' txn => cases hclimb; exact h.1
  | _ => cases hclimb

theorem Inv.act (h : Inv ladder start w) (hsteps : Contiguous first ladder.steps)
    (hfirst : first ≤ start.version + 1) (i : ι)
    (ok : Bool) : Inv ladder start (w.act ladder i ok) := by
  have hopener := h.openers i
  have hacted := act_acted ladder w i ok
  generalize hphase : w.openers i = opener at hopener hacted
  generalize w.act ladder i ok = w' at hacted ⊢
  have hi : ∀ {climb : Climb σ}, opener.climb? = some climb → (w.openers i).Holds :=
    fun hclimb => hphase ▸ Opener.holds_of_climb? hclimb
  cases hacted with
  | stayed => exact h
  | found =>
    refine h.keep ⟨h.start_le, Int.le_refl _, Int.le_refl _, .inl rfl, [], rfl, ?_, .inl rfl⟩ False.elim
    exact fun _ hmem => absurd hmem List.not_mem_nil
  | finished hrest =>
    have hplace : Place ladder start w.store _ _ _ := hopener
    exact h.keep (hplace.finish_ok h.le_target (hplace.rest_past hsteps hrest)) False.elim
  | skipped hle => exact h.keep (Place.skip hopener hle) False.elim
  | refused climb hfound htarget => exact h.keep trivial False.elim
  | locked climb hfound htarget hfree =>
    refine h.put (some i) ⟨hopener, hfound, htarget⟩ (fun _ => rfl) fun j _ hj => ?_
    rw [h.locked j hj] at hfree
    cases hfree
  | outrun hle => exact h.keep ⟨hopener, .inl ⟨rfl, hle⟩⟩ fun _ => hi rfl
  | read hlt => exact h.keep ⟨hopener, hlt⟩ fun _ => hi rfl
  | ran hbody => exact h.keep ⟨hopener.1, hopener.2, hbody⟩ fun _ => hi rfl
  | stamped => exact h.keep ⟨hopener.1, .inr ⟨rfl, hopener.2⟩⟩ fun _ => hi rfl
  | committed =>
    -- only a transaction that did the step takes the store on
    obtain ⟨hclimb, ⟨rfl, hle⟩ | ⟨hversion, hlt, hbody⟩⟩ := hopener
    · exact h.close (hi rfl) (hclimb.next hsteps hfirst hle) id
    · exact h.commit hsteps hfirst (hi rfl) hclimb hversion hlt hbody
  | uncommitted => exact h.close (hi rfl) trivial id
  | rolledBack hclimb hcause => exact h.close (hi hclimb) trivial id

theorem Inv.crash (h : Inv ladder start w) (i : ι) : Inv ladder start (w.crash i) := by
  refine h.put (if w.lock = some i then none else w.lock) trivial (fun hi => hi.elim)
    fun j hji hj => ?_
  have hlock := h.locked j hj
  rw [if_neg fun heq => hji (Option.some_inj.mp (hlock.symm.trans heq)), hlock]

theorem Inv.step (h : Inv ladder start w) (hsteps : Contiguous first ladder.steps)
    (hfirst : first ≤ start.version + 1)
    (label : Label ι) : Inv ladder start (w.step ladder label) := by
  cases label with
  | statement i ok => exact h.act hsteps hfirst i ok
  | crash i => exact h.crash i

theorem inv_run (hsteps : Contiguous first ladder.steps) (hfirst : first ≤ start.version + 1)
    (labels : List (Label ι)) : Inv ladder start (Runs.run (World.step ladder) (World.start start) labels) :=
  Runs.run_inv (fun _ label h _ => h.step hsteps hfirst label) (inv_start ladder start)
    (Runs.eachStep_true _ _)

/-! ## Commits -/

theorem Climb.At.mem (h : climb.At ladder start store) :
    (climb.version, climb.body) ∈ ladder.steps := by
  obtain ⟨front, hsplit, -⟩ := h.place.behind
  rw [hsplit]
  exact List.mem_append_right _ List.mem_cons_self

/-- A statement leaves the store, or takes it over the one step that comes next. -/
theorem Inv.store_step (h : Inv ladder start w) (hsteps : Contiguous first ladder.steps)
    (hfirst : first ≤ start.version + 1) (label : Label ι) :
    (w.step ladder label).store = w.store ∨ ∃ body content,
      (w.store.version + 1, body) ∈ ladder.steps ∧ body w.store.content = some content
        ∧ (w.step ladder label).store = ⟨w.store.version + 1, content⟩ := by
  cases label with
  | crash i => exact .inl rfl
  | statement i ok =>
    have hopener := h.openers i
    have hacted := act_acted ladder w i ok
    rw [World.step]
    generalize w.openers i = opener at hopener hacted
    generalize w.act ladder i ok = w' at hacted ⊢
    cases hacted with
    | committed =>
      obtain ⟨hclimb, ⟨rfl, -⟩ | ⟨hversion, hlt, hbody⟩⟩ := hopener
      · exact .inl rfl
      · have hnext := hclimb.version_eq hsteps hfirst hlt
        have hmem := hclimb.mem
        rw [hnext] at hmem
        refine .inr ⟨_, _, hmem, hbody, ?_⟩
        rw [← hnext, ← hversion]
        rfl
    | _ => exact .inl rfl

/-! ## An opener that is alone -/

/-- Nobody but the opener moves the store. -/
def Opener.Alone (ladder : Ladder σ) (store : Store σ) : Opener σ → Prop
  | .climbing _ atVersion _ => atVersion = store.version
  | .began climb => climb.atVersion = store.version
  | .running climb => climb.atVersion = store.version
  | .stamping climb _ => climb.atVersion = store.version
  | .committing climb _ => climb.atVersion = store.version
  | .done _ (.error _) => store.version ≠ ladder.targetVersion
  | _ => True

theorem Ladder.finish_alone (ladder : Ladder σ) (foundVersion : ℤ) (store : Store σ) :
    (ladder.finish foundVersion store.version).Alone ladder store := by
  rw [Ladder.finish]
  by_cases heq : store.version = ladder.targetVersion
  · rw [if_pos heq]
    trivial
  · rw [if_neg heq]
    exact heq

theorem Opener.Alone.at_eq {opener : Opener σ} (h : opener.Alone ladder store)
    (hclimb : opener.climb? = some climb) : climb.atVersion = store.version := by
  cases opener with
  | began climb' => cases hclimb; exact h
  | running climb' => cases hclimb; exact h
  | stamping climb' content => cases hclimb; exact h
  | committing climb' txn => cases hclimb; exact h
  | _ => cases hclimb

theorem alone_act (h : Inv ladder start w) (hsteps : Contiguous first ladder.steps)
    (hfirst : first ≤ start.version + 1) (halone : (w.openers i).Alone ladder w.store)
    (ok : Bool) : ((w.act ladder i ok).openers i).Alone ladder (w.act ladder i ok).store := by
  have hopener := h.openers i
  have hacted := act_acted ladder w i ok
  -- a step the opener is in takes the store past where it is
  have hbelow : ∀ {climb : Climb σ}, climb.At ladder start w.store → climb.atVersion = w.store.version →
      w.store.version < climb.version ∧ w.store.version ≠ ladder.targetVersion := by
    intro climb hclimb hat
    have hnext := hclimb.place.next_eq hsteps hfirst hclimb.found_lt
    have htarget := hclimb.le_target
    omega
  -- alone, an opener is where the store is until its own commit takes both on
  generalize hphase : w.openers i = opener at hopener halone hacted
  generalize w.act ladder i ok = w' at hacted ⊢
  cases hacted with
  | stayed => exact hphase ▸ halone
  | found => simp [World.put, Opener.Alone]
  | finished hrest =>
    obtain rfl : _ = w.store.version := halone
    simp only [World.put, Function.update_self]
    exact ladder.finish_alone _ w.store
  | skipped hle => simpa [World.put, Opener.Alone] using halone
  | refused climb hfound htarget =>
    obtain ⟨-, hne⟩ := hbelow ⟨hopener, hfound, htarget⟩ halone
    simpa [World.put, Opener.Alone] using hne
  | locked climb hfound htarget hfree => simpa [World.put, Opener.Alone] using halone
  | outrun hle => simpa [World.put, Opener.Alone] using halone
  | read hlt => simpa [World.put, Opener.Alone] using halone
  | ran hbody => simpa [World.put, Opener.Alone] using halone
  | stamped => simpa [World.put, Opener.Alone] using halone
  | committed =>
    obtain ⟨hlt, -⟩ := hbelow hopener.1 halone
    rcases hopener.2 with ⟨-, hle⟩ | ⟨hversion, -⟩
    · omega
    · simpa [World.close, Opener.Alone] using hversion.symm
  | uncommitted =>
    obtain ⟨-, hne⟩ := hbelow hopener.1 halone
    simpa [World.close, Opener.Alone] using hne
  | rolledBack hclimb hcause =>
    obtain ⟨-, hne⟩ := hbelow (hopener.at hclimb) (halone.at_eq hclimb)
    simpa [World.rollback, World.close, Opener.Alone] using hne

def Label.opener : Label ι → ι
  | .statement i _ => i
  | .crash i => i

theorem act_openers (ladder : Ladder σ) (w : World σ ι) (i : ι) (ok : Bool) :
    ∃ opener, (w.act ladder i ok).openers = Function.update w.openers i opener := by
  have hacted := act_acted ladder w i ok
  generalize w.openers i = opener at hacted
  generalize w.act ladder i ok = w' at hacted ⊢
  cases hacted with
  | stayed => exact ⟨w.openers i, (Function.update_eq_self i w.openers).symm⟩
  | _ => exact ⟨_, rfl⟩

/-- The label is somebody else's, or its statement goes through. -/
def Label.Smooth (i : ι) : Label ι → Prop
  | .statement j ok => j = i → ok = true
  | .crash _ => True

/-- What ends an opener whose statements all go through: a body that refuses, or a list that
    leads elsewhere. -/
def Opener.Smooth (ladder : Ladder σ) : Opener σ → Prop
  | .done _ (.error (.locking _)) => False
  | .done _ (.error (.committing _)) => False
  | .done _ (.error (.failed version _ cause)) => cause = .body
    ∧ ∃ body content, (version, body) ∈ ladder.steps ∧ body content = none
  | _ => True

theorem smooth_act (h : Inv ladder start w) (hsmooth : (w.openers i).Smooth ladder) :
    ((w.act ladder i true).openers i).Smooth ladder := by
  have hopener := h.openers i
  have hacted := act_acted ladder w i true
  generalize hphase : w.openers i = opener at hopener hsmooth hacted
  generalize w.act ladder i true = w' at hacted ⊢
  cases hacted with
  | stayed => exact hphase ▸ hsmooth
  | @finished _ _ atVersion _ hrest =>
    simp only [World.put, Function.update_self, Ladder.finish]
    by_cases heq : atVersion = ladder.targetVersion
    · rw [if_pos heq]
      trivial
    · rw [if_neg heq]
      trivial
  | rolledBack hclimb hcause =>
    obtain ⟨rfl, hnone⟩ := hcause rfl
    simp only [World.rollback, World.close, Function.update_self]
    exact ⟨rfl, _, w.store.content, (hopener.at hclimb).mem, hnone⟩
  | committed => simp [World.close, Opener.Smooth]
  | _ => simp [World.put, Opener.Smooth]

theorem smooth_run (hsteps : Contiguous first ladder.steps) (hfirst : first ≤ start.version + 1)
    (labels : List (Label ι)) (hlabels : ∀ label ∈ labels, label.Smooth i) :
    ((Runs.run (World.step ladder) (World.start start) labels).openers i).Smooth ladder := by
  have hstep : ∀ (w : World σ ι) (label : Label ι),
      Inv ladder start w ∧ (w.openers i).Smooth ladder → label.Smooth i →
      Inv ladder start (w.step ladder label) ∧ ((w.step ladder label).openers i).Smooth ladder := by
    rintro w label ⟨h, hsmooth⟩ hlabel
    refine ⟨h.step hsteps hfirst label, ?_⟩
    cases label with
    | statement j ok =>
      by_cases hji : j = i
      · subst hji
        rw [hlabel rfl]
        exact smooth_act h hsmooth
      · obtain ⟨opener, hopeners⟩ := act_openers ladder w j ok
        rw [World.step, hopeners, Function.update_of_ne (Ne.symm hji)]
        exact hsmooth
    | crash j =>
      rw [World.step, World.crash]
      by_cases hji : i = j
      · subst hji
        simp [World.put, Opener.Smooth]
      · simp only [World.put, Function.update_of_ne hji]
        exact hsmooth
  exact (Runs.run_inv hstep ⟨inv_start ladder start, trivial⟩
    (Runs.eachStep_of_forall _ (fun label hmem _ => hlabels label hmem) _)).2

/-- An opener nobody competes with returns `Ok` exactly when it leaves the store at the target. -/
theorem alone_run (hsteps : Contiguous first ladder.steps) (hfirst : first ≤ start.version + 1)
    (labels : List (Label ι)) (honly : ∀ label ∈ labels, label.opener = i) :
    ((Runs.run (World.step ladder) (World.start start) labels).openers i).Alone ladder
      (Runs.run (World.step ladder) (World.start start) labels).store := by
  have hstep : ∀ (w : World σ ι) (label : Label ι),
      Inv ladder start w ∧ (w.openers i).Alone ladder w.store → label.opener = i →
      Inv ladder start (w.step ladder label)
        ∧ ((w.step ladder label).openers i).Alone ladder (w.step ladder label).store := by
    rintro w label ⟨h, halone⟩ hlabel
    refine ⟨h.step hsteps hfirst label, ?_⟩
    cases label with
    | statement j ok =>
      obtain rfl : j = i := hlabel
      exact alone_act h hsteps hfirst halone ok
    | crash j =>
      obtain rfl : j = i := hlabel
      simp [World.step, World.crash, World.put, Opener.Alone]
  exact (Runs.run_inv hstep ⟨inv_start ladder start, trivial⟩
    (Runs.eachStep_of_forall _ (fun label hmem _ => honly label hmem) _)).2

/-! ## What the ladder promises -/

/-- What any number of openers `ι` do to a store that starts as `start`. -/
structure LadderLaw (ladder : Ladder σ) (start : Store σ) (ι : Type*) [DecidableEq ι] : Prop where
  version_eq : ∀ labels : List (Label ι),
    (Runs.run (World.step ladder) (World.start start) labels).store.version
      = start.version + (between ladder.steps start.version
        (Runs.run (World.step ladder) (World.start start) labels).store.version).length
  content_eq : ∀ labels : List (Label ι),
    applyAll (between ladder.steps start.version
        (Runs.run (World.step ladder) (World.start start) labels).store.version) start.content
      = some (Runs.run (World.step ladder) (World.start start) labels).store.content
  one_step : ∀ (labels : List (Label ι)) (label : Label ι),
    ((Runs.run (World.step ladder) (World.start start) labels).step ladder label).store
        = (Runs.run (World.step ladder) (World.start start) labels).store
      ∨ ∃ body content,
        ((Runs.run (World.step ladder) (World.start start) labels).store.version + 1, body) ∈ ladder.steps
        ∧ body (Runs.run (World.step ladder) (World.start start) labels).store.content = some content
        ∧ ((Runs.run (World.step ladder) (World.start start) labels).step ladder label).store
          = ⟨(Runs.run (World.step ladder) (World.start start) labels).store.version + 1, content⟩
  ok_at_target : ∀ (labels : List (Label ι)) (i : ι) (printed : Option String),
    (Runs.run (World.step ladder) (World.start start) labels).openers i = .done printed (.ok ()) →
    (Runs.run (World.step ladder) (World.start start) labels).store.version = ladder.targetVersion
  error_reason : ∀ (labels : List (Label ι)) (i : ι) (printed : Option String) (e : LadderError),
    (∀ label ∈ labels, label.Smooth i) →
    (Runs.run (World.step ladder) (World.start start) labels).openers i = .done printed (.error e) →
    (∃ version atVersion body content, e = .failed version atVersion .body
        ∧ (version, body) ∈ ladder.steps ∧ body content = none)
      ∨ ∃ atVersion, e = .gap atVersion ∧ atVersion ≠ ladder.targetVersion
        ∧ (ladder.targetVersion < atVersion ∨ ∀ step ∈ ladder.steps, step.1 ≠ ladder.targetVersion)
  alone : ∀ (labels : List (Label ι)) (i : ι) (printed : Option String) (result : Except LadderError Unit),
    (∀ label ∈ labels, label.opener = i) →
    (Runs.run (World.step ladder) (World.start start) labels).openers i = .done printed result →
    (result = .ok () ↔
      (Runs.run (World.step ladder) (World.start start) labels).store.version = ladder.targetVersion)

theorem ladder_law (ladder : Ladder σ) (start : Store σ) (first : ℤ) (ι : Type*) [DecidableEq ι]
    (hsteps : Contiguous first ladder.steps) (hfirst : first ≤ start.version + 1) :
    LadderLaw ladder start ι where
  version_eq := fun labels => (inv_run hsteps hfirst labels).version_eq
  content_eq := fun labels => (inv_run hsteps hfirst labels).content_eq
  one_step := fun labels label => (inv_run hsteps hfirst labels).store_step hsteps hfirst label
  ok_at_target := by
    intro labels i printed hdone
    have hopener := (inv_run hsteps hfirst labels).openers i
    rw [hdone] at hopener
    exact hopener
  error_reason := by
    intro labels i printed e hlabels hdone
    have hopener := (inv_run hsteps hfirst labels).openers i
    have hsmooth := smooth_run hsteps hfirst labels hlabels
    rw [hdone] at hopener hsmooth
    -- a smooth opener gets neither a lock error nor a commit error
    cases e with
    | locking version => exact hsmooth.elim
    | committing version => exact hsmooth.elim
    | failed version atVersion cause =>
      obtain ⟨rfl, body, content, hmem, hnone⟩ := hsmooth
      exact .inl ⟨version, atVersion, body, content, rfl, hmem, hnone⟩
    | gap atVersion => exact .inr ⟨atVersion, rfl, hopener⟩
  alone := by
    intro labels i printed result honly hdone
    have hopener := (inv_run hsteps hfirst labels).openers i
    have halone := alone_run hsteps hfirst labels honly
    rw [hdone] at hopener halone
    cases result with
    | ok u => exact iff_of_true rfl hopener
    | error e => exact iff_of_false (by simp) halone

/-! ## Openers that compete -/

/-- The promise with nobody excepted: an opener returns `Ok` exactly when the store is at the
    target. -/
structure LadderExact (ladder : Ladder σ) (start : Store σ) (ι : Type*) [DecidableEq ι] : Prop where
  version_eq : ∀ labels : List (Label ι),
    (Runs.run (World.step ladder) (World.start start) labels).store.version
      = start.version + (between ladder.steps start.version
        (Runs.run (World.step ladder) (World.start start) labels).store.version).length
  content_eq : ∀ labels : List (Label ι),
    applyAll (between ladder.steps start.version
        (Runs.run (World.step ladder) (World.start start) labels).store.version) start.content
      = some (Runs.run (World.step ladder) (World.start start) labels).store.content
  ok_iff : ∀ (labels : List (Label ι)) (i : ι) (printed : Option String)
    (result : Except LadderError Unit),
    (Runs.run (World.step ladder) (World.start start) labels).openers i = .done printed result →
    (result = .ok () ↔
      (Runs.run (World.step ladder) (World.start start) labels).store.version = ladder.targetVersion)

/-- One step, from version 0 to 1. -/
def oneStep : Ladder Unit := ⟨[(1, some)], 1, "test.db", false⟩

/-- Both openers find version 0; one climbs to the end, and then the other's lock fails. -/
def outrun : List (Label Bool) :=
  [.statement false true, .statement true true, .statement true true, .statement true true,
    .statement true true, .statement true true, .statement true true, .statement true true,
    .statement false false]

/-- A list that starts past the store's next version. -/
def skipping : Ladder Unit := ⟨[(2, some)], 2, "test.db", false⟩

theorem not_ladderExact :
    (Contiguous 1 oneStep.steps ∧ ¬ LadderExact oneStep ⟨0, ()⟩ Bool)
      ∧ Contiguous 2 skipping.steps ∧ ¬ LadderExact skipping ⟨0, ()⟩ Bool := by
  refine ⟨⟨⟨rfl, trivial⟩, fun hexact => ?_⟩, ⟨rfl, trivial⟩, fun hexact => ?_⟩
  · have hdone : (Runs.run (World.step oneStep) (World.start ⟨0, ()⟩) outrun).openers false
        = .done none (.error (.locking 1)) := rfl
    have hversion : (Runs.run (World.step oneStep) (World.start ⟨0, ()⟩) outrun).store.version = 1 := rfl
    have hok := (hexact.ok_iff outrun false _ _ hdone).mpr hversion
    cases hok
  · -- one opener on its own: version 2 on record, and one step done
    have hversion := hexact.version_eq (List.replicate 6 (.statement true true))
    exact absurd hversion (by decide)

/-- The two steps of a store found at version 11, whichever way two openers interleave. -/
theorem ladder_law_eleven : Contiguous 12 [(12, some), (13, fun n : ℕ => some (n + 1))]
    ∧ LadderLaw ⟨[(12, some), (13, fun n : ℕ => some (n + 1))], 13, "test.db", true⟩ ⟨11, 0⟩ Bool :=
  ⟨⟨rfl, rfl, trivial⟩, ladder_law _ _ 12 Bool ⟨rfl, rfl, trivial⟩ (by decide)⟩

end MigrationLadder
end Inkentry
