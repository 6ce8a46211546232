/-
  Inkentry.Harvest.LoopRun

  What a run of the harvest loop comes to.  The batches that are sent are the
  pieces of the queue, in order, whatever the answers are; the loop goes on to
  the last of them unless an answer ends it in a panic.  Each of the three
  copies keeps what it should of a run just when the bounds are in order and no
  answer is cut off a character boundary (`Answerable`), and the two that store
  under commits when no answer names an item by an empty id or by the id of a
  commit that it was not asked about.
-/

import Inkentry.Harvest.Loop
import Mathlib.Tactic.Ring

namespace Inkentry
namespace Harvest

open PortableDump (Json)

namespace Source

variable {α : Type} {src : Source α} {w : World} {batchSize : Nat} {items : List α}

/-! ## Answers -/

variable {batch : List α} {i : Nat}

/-- A stored entry's answer: which entry of which answer it is. -/
structure Accepted (src : Source α) (w : World) (i : Nat) (raw : List Char) (parsed : Json)
    (j : Nat) (entry : Json) : Prop where
  answered : w.answers i = some raw
  reads : w.parse (stripAnsi raw) = some parsed
  has : (itemsOf (member "entries" parsed))[j]? = some entry
  accepted : src.accepts w i j entry = true

/-- An answer that is no JSON can be shown, and the name of every entry that is stored. -/
structure Shown (src : Source α) (w : World) (i : Nat) (batch : List α) : Prop where
  raw : ∀ raw, w.answers i = some raw → w.parse (stripAnsi raw) = none →
    isCharBoundary (stripAnsi raw) (min (byteLen (stripAnsi raw)) 200) = true
  names : ∀ raw parsed j entry, Accepted src w i raw parsed j entry →
    isCharBoundary (src.printed batch (textOf src.keyField entry))
      (min (byteLen (src.printed batch (textOf src.keyField entry))) 8) = true

theorem isSome_sliceTo (s : List Char) (k : Nat) :
    (sliceTo s k).isSome = isCharBoundary s k := by
  unfold sliceTo
  cases isCharBoundary s k <;> rfl

theorem storeEntries_spec (src : Source α) (w : World) (i : Nat) (batch : List α) (j : Nat)
    (entries : List Json) :
    ((src.storeEntries w i batch j entries).2 = false
        ↔ ∀ k entry, entries[k]? = some entry → src.accepts w i (j + k) entry = true →
          src.cutsName batch entry = true)
      ∧ ((src.storeEntries w i batch j entries).2 = false →
        ∀ e, e ∈ (src.storeEntries w i batch j entries).1
          ↔ ∃ k entry, entries[k]? = some entry ∧ src.accepts w i (j + k) entry = true
            ∧ e = ⟨batch, textOf src.keyField entry, src.noteOf batch entry⟩) := by
  induction entries generalizing j with
  | nil => simp [storeEntries]
  | cons entry rest ih =>
    obtain ⟨ihPanics, ihStored⟩ := ih (j + 1)
    -- an entry is the first one or one of the rest
    have hfirst (P : Nat → Json → Prop) :
        (∀ k e, (entry :: rest)[k]? = some e → P (j + k) e)
          ↔ P j entry ∧ ∀ k e, rest[k]? = some e → P (j + 1 + k) e := by
      constructor
      · intro h
        refine ⟨h 0 entry rfl, fun k e he => ?_⟩
        have := h (k + 1) e he
        rwa [show j + 1 + k = j + (k + 1) by omega]
      · rintro ⟨hhead, htail⟩ k e he
        cases k with
        | zero =>
          obtain rfl := Option.some.inj he
          exact hhead
        | succ k =>
          rw [show j + (k + 1) = j + 1 + k by omega]
          exact htail k e he
    have hsome (P : Nat → Json → Prop) :
        (∃ k e, (entry :: rest)[k]? = some e ∧ P (j + k) e)
          ↔ P j entry ∨ ∃ k e, rest[k]? = some e ∧ P (j + 1 + k) e := by
      have := (hfirst fun k e => ¬ P k e).not
      push Not at this
      rw [this]
      tauto
    rw [hfirst fun k e => src.accepts w i k e = true → src.cutsName batch e = true]
    rw [storeEntries]
    cases haccepts : src.accepts w i j entry with
    | false =>
      simp only [Bool.false_eq_true, if_false, false_imp_iff, true_and]
      refine ⟨ihPanics, fun hcalm e => ?_⟩
      rw [ihStored hcalm, hsome fun k e' => src.accepts w i k e' = true
        ∧ e = ⟨batch, textOf src.keyField e', src.noteOf batch e'⟩, haccepts]
      simp
    | true =>
      cases hcuts : src.cutsName batch entry with
      | false => simp
      | true =>
        simp only [if_true, true_imp_iff, true_and]
        refine ⟨ihPanics, fun hcalm e => ?_⟩
        rw [List.mem_cons, ihStored hcalm, hsome fun k e' => src.accepts w i k e' = true
          ∧ e = ⟨batch, textOf src.keyField e', src.noteOf batch e'⟩, haccepts]
        simp

/-- An accepted entry is one of the answer that the batch got, as it reads. -/
theorem Accepted.same {i j : Nat} {raw raw' : List Char} {parsed parsed' : Json}
    {entry : Json} (h : Accepted src w i raw' parsed' j entry)
    (hanswer : w.answers i = some raw) (hparse : w.parse (stripAnsi raw) = some parsed) :
    raw = raw' ∧ parsed = parsed' := by
  obtain rfl := Option.some.inj (hanswer.symm.trans h.answered)
  exact ⟨rfl, Option.some.inj (hparse.symm.trans h.reads)⟩

/-- An answer ends in a panic just when something of it is cut off a boundary. -/
theorem handleAnswer_calm_iff (i : Nat) (batch : List α) :
    (src.handleAnswer w i batch).2 = false ↔ Shown src w i batch := by
  unfold handleAnswer
  -- no answer, one that does not parse, or entries that are stored in turn
  cases hanswer : w.answers i with
  | none =>
    refine iff_of_true rfl ⟨fun raw h => ?_, fun raw parsed j entry h => ?_⟩
    · exact absurd (hanswer.symm.trans h) (Option.some_ne_none raw).symm
    · exact absurd (hanswer.symm.trans h.answered) (Option.some_ne_none raw).symm
  | some raw =>
    cases hparse : w.parse (stripAnsi raw) with
    | none =>
      simp only [hparse]
      rw [← Bool.not_eq_true', Option.not_isNone, isSome_sliceTo]
      constructor
      · intro hboundary
        refine ⟨fun raw' h _ => ?_, fun raw' parsed j entry h => ?_⟩
        · obtain rfl := Option.some.inj (hanswer.symm.trans h)
          exact hboundary
        · obtain rfl := Option.some.inj (hanswer.symm.trans h.answered)
          exact absurd (hparse.symm.trans h.reads) (Option.some_ne_none parsed).symm
      · intro h
        exact h.raw raw hanswer hparse
    | some parsed =>
      simp only [hparse]
      rw [(storeEntries_spec src w i batch 0 _).1]
      constructor
      · intro hcuts
        refine ⟨fun raw' h hnone => ?_, fun raw' parsed' j entry h => ?_⟩
        · obtain rfl := Option.some.inj (hanswer.symm.trans h)
          exact absurd (hparse.symm.trans hnone) (Option.some_ne_none parsed)
        · obtain ⟨rfl, rfl⟩ := h.same hanswer hparse
          have := hcuts j entry h.has (by rw [Nat.zero_add]; exact h.accepted)
          rwa [cutsName, isSome_sliceTo] at this
      · intro h k entry hentry haccepts
        rw [Nat.zero_add] at haccepts
        rw [cutsName, isSome_sliceTo]
        exact h.names raw parsed k entry ⟨hanswer, hparse, hentry, haccepts⟩

theorem mem_handleAnswer (hcalm : (src.handleAnswer w i batch).2 = false) (e : Stored α) :
    e ∈ (src.handleAnswer w i batch).1
      ↔ ∃ raw parsed j entry, Accepted src w i raw parsed j entry
        ∧ e = ⟨batch, textOf src.keyField entry, src.noteOf batch entry⟩ := by
  unfold handleAnswer at hcalm ⊢
  -- only an answer that parses stores anything
  cases hanswer : w.answers i with
  | none =>
    refine iff_of_false (fun h => nomatch h) ?_
    rintro ⟨raw, parsed, j, entry, h, -⟩
    exact absurd (hanswer.symm.trans h.answered) (Option.some_ne_none raw).symm
  | some raw =>
    rw [hanswer] at hcalm
    cases hparse : w.parse (stripAnsi raw) with
    | none =>
      simp only [hparse]
      refine iff_of_false (fun h => nomatch h) ?_
      rintro ⟨raw', parsed, j, entry, h, -⟩
      obtain rfl := Option.some.inj (hanswer.symm.trans h.answered)
      exact absurd (hparse.symm.trans h.reads) (Option.some_ne_none parsed).symm
    | some parsed =>
      simp only [hparse] at hcalm ⊢
      rw [(storeEntries_spec src w i batch 0 _).2 hcalm]
      constructor
      · rintro ⟨k, entry, hentry, haccepts, rfl⟩
        rw [Nat.zero_add] at haccepts
        exact ⟨raw, parsed, k, entry, ⟨hanswer, hparse, hentry, haccepts⟩, rfl⟩
      · rintro ⟨raw', parsed', j, entry, h, rfl⟩
        obtain ⟨rfl, rfl⟩ := h.same hanswer hparse
        exact ⟨j, entry, h.has, by rw [Nat.zero_add]; exact h.accepted, rfl⟩

/-! ## The run -/

/-- The batches that the queue comes to. -/
def planned (src : Source α) (w : World) (batchSize : Nat) (items : List α) : List (List α) :=
  SplitQueue.plan (src.oversized w) (SplitQueue.chunks (max batchSize 1) items)

theorem flatten_planned (src : Source α) (w : World) (batchSize : Nat) (items : List α) :
    (src.planned w batchSize items).flatten = items := by
  rw [planned, SplitQueue.flatten_plan, SplitQueue.flatten_chunks (by omega)]

/-- Where the loop stands: what was sent is the front of the plan, and what was stored is what the
answers to it brought. -/
structure Progress (src : Source α) (w : World) (batchSize : Nat) (items : List α) (s : State α) :
    Prop where
  sent : s.panicked = false → s.requests.map (·.batch) ++ SplitQueue.plan (src.oversized w) s.work
    = src.planned w batchSize items
  calm : s.panicked = false → ∀ i r, s.requests[i]? = some r →
    (src.handleAnswer w i r.batch).2 = false
  stored : s.panicked = false → ∀ e, e ∈ s.stored
    ↔ ∃ i r, s.requests[i]? = some r ∧ e ∈ (src.handleAnswer w i r.batch).1
  bounds : s.panicked = false → s.requests ≠ [] → src.leastOutput ≤ w.contextLength / 2
  work : s.work ≠ [] → items ≠ []
  panicked : s.panicked = true → (items ≠ [] ∧ w.contextLength / 2 < src.leastOutput)
    ∨ ∃ i batch, (src.planned w batchSize items)[i]? = some batch
      ∧ (src.handleAnswer w i batch).2 = true

theorem progress_start (src : Source α) (w : World) (batchSize : Nat) (items : List α) :
    Progress src w batchSize items (start batchSize items) where
  sent _ := rfl
  calm _ i r hr := by cases hr
  stored _ e := by
    refine iff_of_false (fun h => nomatch h) ?_
    rintro ⟨i, r, hr, -⟩
    cases hr
  bounds _ h := absurd rfl h
  work h := by
    rintro rfl
    refine h ?_
    show SplitQueue.chunks (max batchSize 1) ([] : List α) = []
    rw [SplitQueue.chunks, if_pos (Or.inl rfl)]
  panicked h := nomatch h

theorem outputBudget_eq_none {n : Nat} (h : src.outputBudget w n = none) :
    w.contextLength / 2 < src.leastOutput := by
  unfold outputBudget clamp at h
  split_ifs at h with hle
  omega

theorem le_of_outputBudget {n out : Nat} (h : src.outputBudget w n = some out) :
    src.leastOutput ≤ w.contextLength / 2 := by
  unfold outputBudget clamp at h
  split_ifs at h with hle
  exact hle

theorem step_cases {s : State α} (hcalm : s.panicked = false) {batch : List α}
    {rest : List (List α)} (hwork : s.work = batch :: rest) :
    (w.contextLength / 2 < src.leastOutput
        ∧ src.step w s = { s with work := rest, panicked := true })
      ∨ (src.oversized w batch = true ∧ 1 < batch.length ∧ src.step w s = { s with
          work := batch.take (batch.length / 2) :: batch.drop (batch.length / 2) :: rest })
      ∨ ∃ r : Request α, r.batch = batch ∧ src.leastOutput ≤ w.contextLength / 2
        ∧ ¬ (src.oversized w batch = true ∧ 1 < batch.length)
        ∧ src.step w s = {
          work := rest
          requests := s.requests ++ [r]
          stored := s.stored ++ (src.handleAnswer w s.requests.length batch).1
          panicked := (src.handleAnswer w s.requests.length batch).2 } := by
  simp only [step, hcalm, hwork, Bool.false_eq_true, if_false]
  cases hbudget : src.outputBudget w batch.length with
  | none => exact Or.inl ⟨outputBudget_eq_none hbudget, rfl⟩
  | some out =>
    have hover : src.oversized w batch = true
        ↔ w.contextLength < src.inputTokens w batch + out := by
      rw [oversized, hbudget, Option.any_some, decide_eq_true_eq]
    by_cases hsplit : w.contextLength < src.inputTokens w batch + out ∧ 1 < batch.length
    · exact Or.inr (Or.inl ⟨hover.mpr hsplit.1, hsplit.2, if_pos hsplit⟩)
    · refine Or.inr (Or.inr ⟨_, rfl, le_of_outputBudget hbudget, ?_, if_neg hsplit⟩)
      rw [hover]
      exact hsplit

theorem getElem?_append_singleton {β : Type} {l : List β} {b : β} {c : β} :
    (l ++ [b])[i]? = some c ↔ l[i]? = some c ∨ i = l.length ∧ c = b := by
  rw [List.getElem?_append]
  split
  case isTrue hlt =>
    constructor
    · exact Or.inl
    · rintro (h | ⟨rfl, -⟩)
      · exact h
      · exact absurd hlt (lt_irrefl _)
  case isFalse hge =>
    have hnone : l[i]? = none := List.getElem?_eq_none (not_lt.mp hge)
    rw [hnone]
    obtain hzero | hpos : i - l.length = 0 ∨ 0 < i - l.length := by omega
    · rw [hzero]
      simp only [List.getElem?_cons_zero, Option.some.injEq, reduceCtorEq, false_or]
      constructor
      · rintro rfl
        exact ⟨by omega, rfl⟩
      · exact fun h => h.2.symm
    · refine iff_of_false (fun h => ?_) ?_
      · rw [List.getElem?_eq_none (by rw [List.length_singleton]; omega)] at h
        cases h
      · rintro (h | ⟨rfl, -⟩)
        · cases h
        · omega

theorem progress_step {s : State α} (h : Progress src w batchSize items s) :
    Progress src w batchSize items (src.step w s) := by
  cases hpanicked : s.panicked with
  | true =>
    have hstay : src.step w s = s := by simp only [step, hpanicked, if_true]
    rw [hstay]
    exact h
  | false =>
    cases hwork : s.work with
    | nil =>
      have hstay : src.step w s = s := by
        simp only [step, hpanicked, hwork, Bool.false_eq_true, if_false]
      rw [hstay]
      exact h
    | cons batch rest =>
      have hitems := h.work (by rw [hwork]; exact List.cons_ne_nil _ _)
      have hsent := h.sent hpanicked
      rw [hwork] at hsent
      obtain ⟨hshort, hstep⟩ | ⟨hover, hlong, hstep⟩ | ⟨r, hr, hbounds, hfits, hstep⟩ :=
        @step_cases _ src w s hpanicked batch rest hwork
      · -- half the context is below the least output: the clamp panics
        rw [hstep]
        exact ⟨fun h => Bool.noConfusion h, fun h => Bool.noConfusion h, fun h => Bool.noConfusion h,
          fun h => Bool.noConfusion h, fun _ => hitems, fun _ => Or.inl ⟨hitems, hshort⟩⟩
      · -- too long: its halves take its place
        rw [hstep]
        refine ⟨fun _ => ?_, fun _ => h.calm hpanicked, fun _ => h.stored hpanicked,
          fun _ => h.bounds hpanicked, fun _ => hitems, fun h' => ?_⟩
        · rw [SplitQueue.plan_cons_of_split ⟨hover, hlong⟩] at hsent
          exact hsent
        · exact absurd (hpanicked.symm.trans h') (by decide)
      · -- it is sent
        rw [hstep]
        subst hr
        rw [SplitQueue.plan_cons_of_fits hfits] at hsent
        refine ⟨fun _ => ?_, fun hcalm i r' hr' => ?_, fun _ e => ?_, fun _ _ => hbounds,
          fun _ => hitems, fun hnow => Or.inr ⟨s.requests.length, r.batch, ?_, hnow⟩⟩
        · show (s.requests ++ [r]).map (·.batch) ++ _ = _
          rw [List.map_append, List.append_assoc]
          exact hsent
        · obtain hold | ⟨rfl, rfl⟩ := getElem?_append_singleton.mp hr'
          · exact h.calm hpanicked i r' hold
          · exact hcalm
        · show e ∈ s.stored ++ _ ↔ ∃ i r', (s.requests ++ [r])[i]? = some r' ∧ _
          simp only [List.mem_append, h.stored hpanicked, getElem?_append_singleton]
          constructor
          · rintro (⟨i, r', hr', he⟩ | he)
            · exact ⟨i, r', Or.inl hr', he⟩
            · exact ⟨_, r, Or.inr ⟨rfl, rfl⟩, he⟩
          · rintro ⟨i, r', hr' | ⟨rfl, rfl⟩, he⟩
            · exact Or.inl ⟨i, r', hr', he⟩
            · exact Or.inr he
        · rw [← hsent, List.getElem?_append_right (by rw [List.length_map]), List.length_map,
            Nat.sub_self, List.getElem?_cons_zero]

theorem progress_run (src : Source α) (w : World) (batchSize : Nat) (items : List α) (n : Nat) :
    Progress src w batchSize items (src.run w batchSize items n) :=
  @Runs.after_inv _ Unit (fun s _ => src.step w s) (start batchSize items) (fun _ => ())
    (Progress src w batchSize items) (fun _ _ h => progress_step h)
    (progress_start src w batchSize items) n

theorem exists_ended (src : Source α) (w : World) (batchSize : Nat) (items : List α) :
    ∃ n, (src.run w batchSize items n).work = [] ∨ (src.run w batchSize items n).panicked = true := by
  have hturn : ∀ s : State α, ¬ (s.work = [] ∨ s.panicked = true) →
      SplitQueue.load (src.step w s).work < SplitQueue.load s.work := by
    intro s hgoing
    obtain ⟨hwork, hcalm⟩ := not_or.mp hgoing
    rw [Bool.not_eq_true] at hcalm
    obtain ⟨batch, rest, hcons⟩ := List.exists_cons_of_ne_nil hwork
    have htail : SplitQueue.load rest < SplitQueue.load (batch :: rest) := SplitQueue.load_tail_lt
    obtain ⟨-, hstep⟩ | ⟨-, hlong, hstep⟩ | ⟨r, -, -, -, hstep⟩ :=
      @step_cases _ src w s hcalm batch rest hcons
    · rw [hstep, hcons]
      exact htail
    · rw [hstep, hcons]
      exact SplitQueue.load_split_lt hlong
    · rw [hstep, hcons]
      exact htail
  obtain ⟨n, -, hn⟩ := @Runs.exists_halted _ Unit (fun s _ => src.step w s) (start batchSize items)
    (fun _ => ()) (fun _ => True) (fun s => s.work = [] ∨ s.panicked = true)
    (fun s => SplitQueue.load s.work) (fun _ _ _ => trivial) (fun s _ _ hgoing => hturn s hgoing)
    trivial
  exact ⟨n, hn⟩

/-! ## The loop as it should go -/

/-- A run without a panic that ends with every item sent once, in order. -/
structure LoopLaw (src : Source α) (w : World) (batchSize : Nat) (items : List α) : Prop where
  calm : ∀ n, (src.run w batchSize items n).panicked = false
  ends : ∃ n, (src.run w batchSize items n).work = []
  once : ∀ n, (src.run w batchSize items n).work = [] →
    ((src.run w batchSize items n).requests.map (·.batch)).flatten = items

/-- The context has room for the least answer, and every planned request's answer can be shown. -/
structure Answerable (src : Source α) (w : World) (batchSize : Nat) (items : List α) : Prop where
  bounds : items ≠ [] → src.leastOutput ≤ w.contextLength / 2
  shown : ∀ i batch, (src.planned w batchSize items)[i]? = some batch → Shown src w i batch

theorem panicked_eq_false (h : Answerable src w batchSize items) (n : Nat) :
    (src.run w batchSize items n).panicked = false := by
  cases hpanicked : (src.run w batchSize items n).panicked with
  | false => rfl
  | true =>
    obtain ⟨hne, hshort⟩ | ⟨i, batch, hbatch, hpanics⟩ :=
      (progress_run src w batchSize items n).panicked hpanicked
    · exact absurd (h.bounds hne) (not_le.mpr hshort)
    · have hcalm := (handleAnswer_calm_iff i batch).mpr (h.shown i batch hbatch)
      exact absurd (hpanics.symm.trans hcalm) (by decide)

theorem sent_planned {n : Nat} (hcalm : (src.run w batchSize items n).panicked = false)
    (hwork : (src.run w batchSize items n).work = []) :
    (src.run w batchSize items n).requests.map (·.batch) = src.planned w batchSize items := by
  have hsent := (progress_run src w batchSize items n).sent hcalm
  rwa [hwork, SplitQueue.plan_nil, List.append_nil] at hsent

theorem getElem?_requests {n i : Nat}
    (hsent : (src.run w batchSize items n).requests.map (·.batch) = src.planned w batchSize items)
    (hbatch : (src.planned w batchSize items)[i]? = some batch) :
    ∃ r, (src.run w batchSize items n).requests[i]? = some r ∧ r.batch = batch := by
  rw [← hsent, List.getElem?_map, Option.map_eq_some_iff] at hbatch
  exact hbatch

/-- The loop goes as it should just when its bounds are in order and every answer can be shown. -/
theorem loopLaw_iff_answerable :
    LoopLaw src w batchSize items ↔ Answerable src w batchSize items := by
  constructor
  · intro h
    obtain ⟨n, hn⟩ := h.ends
    have hsent := sent_planned (h.calm n) hn
    have hprogress := progress_run src w batchSize items n
    refine ⟨fun hne => hprogress.bounds (h.calm n) fun hnone => hne ?_, fun i batch hbatch => ?_⟩
    · rw [← flatten_planned src w batchSize items, ← hsent, hnone]
      rfl
    · obtain ⟨r, hr, rfl⟩ := getElem?_requests hsent hbatch
      exact (handleAnswer_calm_iff i r.batch).mp (hprogress.calm (h.calm n) i r hr)
  · intro h
    refine ⟨panicked_eq_false h, ?_, fun n hn => ?_⟩
    · obtain ⟨n, hn | hpanicked⟩ := exists_ended src w batchSize items
      · exact ⟨n, hn⟩
      · exact absurd ((panicked_eq_false h n).symm.trans hpanicked) (by decide)
    · rw [sent_planned (panicked_eq_false h n) hn, flatten_planned]

/-! ## Entries of commits -/

/-- What is stored under the id of a commit is stored for a commit of the batch that the answer's
id, which is not empty, is the start of. -/
def FilesByCommit (src : Source Commit) (w : World) (batchSize : Nat) (commits items : List Commit) :
    Prop :=
  ∀ n, ∀ e ∈ (src.run w batchSize items n).stored, e.note.sourceRef ∈ commits.map Commit.sha →
    e.key ≠ [] ∧ ∃ c ∈ e.batch, e.note.sourceRef = c.sha ∧ e.key <+: c.sha

/-- No stored entry of an answer names its commit by nothing, or by the id of a commit that is not
in the request. -/
def NamesItsOwn (src : Source Commit) (w : World) (batchSize : Nat) (commits items : List Commit) :
    Prop :=
  ∀ i batch, (src.planned w batchSize items)[i]? = some batch →
    ∀ raw parsed j entry, Accepted src w i raw parsed j entry →
      textOf src.keyField entry ≠ [] ∧ ((∃ c ∈ batch, textOf src.keyField entry <+: c.sha)
        ∨ textOf src.keyField entry ∉ commits.map Commit.sha)

theorem fullSha_of_matched {batch : List Commit} {key : List Char}
    (h : ∃ c ∈ batch, key <+: c.sha) : ∃ c ∈ batch, fullSha batch key = c.sha ∧ key <+: c.sha := by
  obtain ⟨c, hc, hprefix⟩ := h
  unfold fullSha
  cases hfind : batch.find? fun c => key.isPrefixOf c.sha with
  | none =>
    have hnot := List.find?_eq_none.mp hfind c hc
    exact absurd (List.isPrefixOf_iff_prefix.mpr hprefix) hnot
  | some d =>
    exact ⟨d, List.mem_of_find?_eq_some hfind, rfl,
      List.isPrefixOf_iff_prefix.mp (@List.find?_some _ (fun c : Commit => key.isPrefixOf c.sha) _ _ hfind)⟩

theorem fullSha_of_unmatched {batch : List Commit} {key : List Char}
    (h : ¬ ∃ c ∈ batch, key <+: c.sha) : fullSha batch key = key := by
  have hnone : (batch.find? fun c => key.isPrefixOf c.sha) = none := by
    rw [List.find?_eq_none]
    intro c hc hprefix
    exact h ⟨c, hc, List.isPrefixOf_iff_prefix.mp hprefix⟩
  rw [fullSha, hnone]
  rfl

theorem ne_nil_of_planned (h : (src.planned w batchSize items)[i]? = some batch) : batch ≠ [] := by
  obtain ⟨queued, hqueued, hpiece⟩ := List.mem_flatMap.mp (List.mem_of_getElem? h)
  exact SplitQueue.ne_nil_of_mem_pieces (SplitQueue.ne_nil_of_mem_chunks hqueued) hpiece

theorem mem_items_of_planned {a : α} (h : (src.planned w batchSize items)[i]? = some batch)
    (ha : a ∈ batch) : a ∈ items := by
  rw [← flatten_planned src w batchSize items]
  exact List.mem_flatten.mpr ⟨batch, List.mem_of_getElem? h, ha⟩

/-- A run without a panic files by commit just when the answers name their own commits. -/
theorem filesByCommit_iff {src : Source Commit} {commits items : List Commit}
    (hsource : src.sourceRef = fullSha) (hsub : ∀ c ∈ items, c ∈ commits)
    (hlaw : LoopLaw src w batchSize items) :
    FilesByCommit src w batchSize commits items ↔ NamesItsOwn src w batchSize commits items := by
  constructor
  · intro hfiles i batch hbatch raw parsed j entry haccepted
    obtain ⟨n, hn⟩ := hlaw.ends
    have hprogress := progress_run src w batchSize items n
    obtain ⟨r, hr, rfl⟩ := getElem?_requests (sent_planned (hlaw.calm n) hn) hbatch
    have hstored := (hprogress.stored (hlaw.calm n) _).mpr ⟨i, r, hr,
      (mem_handleAnswer (hprogress.calm (hlaw.calm n) i r hr) _).mpr
        ⟨raw, parsed, j, entry, haccepted, rfl⟩⟩
    have hfiled := hfiles n _ hstored
    simp only [noteOf, hsource] at hfiled
    refine ⟨fun hempty => ?_, ?_⟩
    · -- the empty id is the start of the first commit's
      obtain ⟨c, rest, hcons⟩ := List.exists_cons_of_ne_nil (ne_nil_of_planned hbatch)
      have hc : c ∈ r.batch := hcons ▸ List.mem_cons_self
      obtain ⟨d, hd, hsha, -⟩ := @fullSha_of_matched r.batch (textOf src.keyField entry)
        ⟨c, hc, by rw [hempty]; exact List.nil_prefix⟩
      refine (hfiled ?_).1 hempty
      rw [hsha]
      exact List.mem_map_of_mem (hsub d (mem_items_of_planned hbatch hd))
    · by_cases hprefix : ∃ c ∈ r.batch, textOf src.keyField entry <+: c.sha
      · exact Or.inl hprefix
      · refine Or.inr fun hmem => hprefix ?_
        rw [fullSha_of_unmatched hprefix] at hfiled
        obtain ⟨-, c, hc, -, hstart⟩ := hfiled hmem
        exact ⟨c, hc, hstart⟩
  · intro hnames n e he hcommit
    have hprogress := progress_run src w batchSize items n
    obtain ⟨i, r, hr, hhandled⟩ := (hprogress.stored (hlaw.calm n) e).mp he
    obtain ⟨raw, parsed, j, entry, haccepted, rfl⟩ :=
      (mem_handleAnswer (hprogress.calm (hlaw.calm n) i r hr) e).mp hhandled
    have hbatch : (src.planned w batchSize items)[i]? = some r.batch := by
      have hlt := (List.getElem?_eq_some_iff.mp hr).choose
      rw [← hprogress.sent (hlaw.calm n), List.getElem?_append_left (by rwa [List.length_map]),
        List.getElem?_map, hr]
      rfl
    obtain ⟨hne, hown⟩ := hnames i r.batch hbatch raw parsed j entry haccepted
    refine ⟨hne, ?_⟩
    simp only [noteOf, hsource] at hcommit ⊢
    by_cases hprefix : ∃ c ∈ r.batch, textOf src.keyField entry <+: c.sha
    · exact fullSha_of_matched hprefix
    · obtain hstart | hforeign := hown
      · exact absurd hstart hprefix
      · rw [fullSha_of_unmatched hprefix] at hcommit
        exact absurd hcommit hforeign

end Source

/-! ## The three harvests -/

theorem mem_of_mem_dropCommitsWithSecrets {containsSecret : List Char → Bool}
    {commits : List Commit} {c : Commit} (h : c ∈ (dropCommitsWithSecrets containsSecret commits).1) :
    c ∈ commits := (List.mem_filter.mp h).1

/-- The run of a commit harvest as it should go. -/
structure CommitHarvestLaw (src : Source Commit) (w : World) (batchSize : Nat)
    (commits items : List Commit) : Prop where
  loop : src.LoopLaw w batchSize items
  files : src.FilesByCommit w batchSize commits items

theorem commitHarvestLaw_iff {src : Source Commit} {w : World} {batchSize : Nat}
    {commits items : List Commit} (hsource : src.sourceRef = fullSha)
    (hsub : ∀ c ∈ items, c ∈ commits) :
    CommitHarvestLaw src w batchSize commits items
      ↔ src.Answerable w batchSize items ∧ src.NamesItsOwn w batchSize commits items := by
  constructor
  · intro h
    exact ⟨Source.loopLaw_iff_answerable.mp h.loop,
      (Source.filesByCommit_iff hsource hsub h.loop).mp h.files⟩
  · rintro ⟨hanswerable, hnames⟩
    have hloop := Source.loopLaw_iff_answerable.mpr hanswerable
    exact ⟨hloop, (Source.filesByCommit_iff hsource hsub hloop).mpr hnames⟩

/-- A commit, and a context of three hundred tokens. -/
def oneCommit : Commit := ⟨"abc12345".toList, "Use WAL".toList, []⟩

def smallContext : World := ⟨300, fun _ => none, fun _ => none, fun _ _ => .stored⟩

end Harvest
end Inkentry
