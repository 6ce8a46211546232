/-
  Inkentry.Relay.PushResults

  The results of relayed pushes, from the team server's answer to the
  acknowledgement: whatever a session is answered, polled and told, it buffers
  one durable outcome for an external id, within its bound, and hands it out
  until an ack names it.  While it is buffered, what is known of its remote id is
  not forgotten.

  An ack forgets it.  A repeated push that is answered after that may be
  buffered without the id the session had before.
-/

import Inkentry.Lib.Runs
import Inkentry.Relay.Session

namespace Inkentry
namespace Relay

open Server Memory Runs

/-! ## Steps of a session -/

/-- The outcome of one pushed entry, as the team server reports it. -/
structure ItemOutcome where
  status : String
  externalId : Option String
  id : Option String
  deriving DecidableEq

/-- An outcome of no external id is passed over. -/
def ItemOutcome.result? (o : ItemOutcome) : Option BatchItemResult :=
  o.externalId.map fun externalId => ⟨o.status, externalId, o.id⟩

/-- What happens to a session.  A push or a catch-up whose request fails has no answer. -/
inductive SessionStep where
  | seed (sinceCursor : Option String)
  | push (now : Int) (answer : Option (List ItemOutcome))
  | catchUp (now : Int) (answer : Option (List RemoteEntry))
  | poll
  | ack (appliedPushExternalIds appliedPullRemoteIds : List String)

def sessionStep (s : RelayInner) : SessionStep → RelayInner
  | .seed sinceCursor => s.seedCursor sinceCursor
  | .push now answer => s.finishPush now (answer.map (List.filterMap ItemOutcome.result?))
  | .catchUp now (some page) => s.finishCatchUp now page
  | .catchUp _ none => s.failCatchUp
  | .poll => s
  | .ack pushIds pullIds => s.ack pushIds pullIds

/-- The session after the steps. -/
def sessionAfter (steps : List SessionStep) : RelayInner := run sessionStep .new steps

/-- The step acknowledges the result of an external id. -/
def SessionStep.Acks (step : SessionStep) (externalId : String) : Prop :=
  match step with
  | .ack pushIds _ => externalId ∈ pushIds
  | _ => False

/-- The step is the answer to a push, and reports the result. -/
def SessionStep.Reports (step : SessionStep) (r : RelayPushResult) : Prop :=
  match step with
  | .push _ (some outcomes) => ⟨r.status, some r.externalId, r.remoteId⟩ ∈ outcomes
  | _ => False

/-! ## What is to hold -/

/-- The result that is buffered for an external id. -/
def RelayInner.resultFor? (s : RelayInner) (externalId : String) : Option RelayPushResult :=
  s.pushResults.find? fun r => r.externalId = externalId

/-- The result was stored durably on the team server. -/
def RelayPushResult.Stored (r : RelayPushResult) : Prop :=
  r.status = "created" ∨ r.status = "skipped"

/-- What holds of the buffers themselves. -/
structure RelayInner.Bounded (s : RelayInner) : Prop where
  keyed : (s.pushResults.map RelayPushResult.externalId).Nodup
  stored : ∀ r ∈ s.pushResults, r.Stored
  results_le : s.pushResults.length ≤ maxBufferedItemsPerSession
  pulled_le : s.pulled.length ≤ maxBufferedItemsPerSession

/-- A remote id that is known once is known whenever a result is buffered later. -/
def NeverForgets (steps more : List SessionStep) : Prop :=
  ∀ x, ∀ r ∈ (sessionAfter steps).resultFor? x, ∀ r' ∈ (sessionAfter (steps ++ more)).resultFor? x,
    r.remoteId.isSome → r'.remoteId.isSome

/-- A result that is not acknowledged is there for every poll, itself or as a later
    answer has it. -/
def Offers (steps more : List SessionStep) : Prop :=
  ∀ r ∈ (sessionAfter steps).poll.pushResults, (∀ step ∈ more, ¬ step.Acks r.externalId) →
    ∃ r' ∈ (sessionAfter (steps ++ more)).poll.pushResults, r'.externalId = r.externalId
      ∧ (r' = r ∨ ∃ step ∈ more, step.Reports r')

/-- A remote id that is known stays known until its result is acknowledged. -/
def KeepsRemoteIds (steps more : List SessionStep) : Prop :=
  ∀ x, ∀ r ∈ (sessionAfter steps).resultFor? x, r.remoteId.isSome →
    (∀ step ∈ more, ¬ step.Acks x) →
    ∃ r' ∈ (sessionAfter (steps ++ more)).resultFor? x, r'.remoteId.isSome

/-! ## One result -/

variable {s : RelayInner}
variable {o : RelayPushResult} {x : String}

theorem RelayInner.Bounded.resultFor?_eq_some_iff (h : s.Bounded)
    {r : RelayPushResult} : s.resultFor? x = some r ↔ r ∈ s.pushResults ∧ r.externalId = x := by
  constructor
  · intro hr
    exact ⟨List.mem_of_find?_eq_some hr, by simpa using List.find?_some hr⟩
  · rintro ⟨hr, rfl⟩
    cases hfind : s.resultFor? r.externalId with
    | none =>
      have hnone := List.find?_eq_none.mp hfind r hr
      simp at hnone
    | some o =>
      have ho : o.externalId = r.externalId := by simpa using List.find?_some hfind
      rw [List.inj_on_of_nodup_map h.keyed (List.mem_of_find?_eq_some hfind) hr ho]

/-- The outcome as it is buffered. -/
def bufferedResult (r : BatchItemResult) : RelayPushResult := ⟨r.externalId, r.id, r.status⟩

/-- What buffering a result does: nothing, a new result within the bound, or a better
    one in the place of the old. -/
theorem RelayInner.bufferResult_cases (s : RelayInner) (r : BatchItemResult) :
    (s.bufferResult r).2 = s
      ∨ ((bufferedResult r).Stored ∧ s.resultFor? r.externalId = none
        ∧ s.pushResults.length < maxBufferedItemsPerSession
        ∧ (s.bufferResult r).2.pushResults = s.pushResults ++ [bufferedResult r])
      ∨ ((bufferedResult r).Stored
        ∧ (∃ o, s.resultFor? r.externalId = some o ∧ (r.id.isSome ∨ o.remoteId = none))
        ∧ (s.bufferResult r).2.pushResults = s.pushResults.map fun o =>
            if o.externalId = r.externalId then bufferedResult r else o) := by
  unfold RelayInner.bufferResult
  split
  case isFalse => exact .inl rfl
  case isTrue hstored =>
    dsimp only
    cases hfind : s.pushResults.find? fun o => o.externalId = r.externalId with
    | some o =>
      by_cases hbetter : r.id.isSome ∨ o.remoteId.isNone
      · refine .inr (.inr ⟨hstored, ⟨o, hfind, ?_⟩, ?_⟩)
        · simpa using hbetter
        · simp only [if_pos hbetter]
          rfl
      · exact .inl (by simp only [if_neg hbetter])
    | none =>
      by_cases hfull : maxBufferedItemsPerSession ≤ s.pushResults.length
      · exact .inl (by simp only [if_pos hfull])
      · refine .inr (.inl ⟨hstored, hfind, not_le.mp hfull, ?_⟩)
        simp only [if_neg hfull]
        rfl

theorem RelayInner.Bounded.bufferResult (h : s.Bounded) (r : BatchItemResult) :
    (s.bufferResult r).2.Bounded := by
  obtain ⟨results, hframe⟩ := s.bufferResult_frame r
  have hpulled : (s.bufferResult r).2.pulled = s.pulled := by rw [hframe]
  -- dropped, appended under a new key, or put in the place of its key
  rcases s.bufferResult_cases r with heq | ⟨hstored, hnone, hroom, heq⟩ | ⟨hstored, -, heq⟩
  · rwa [heq]
  · have hnew : r.externalId ∉ s.pushResults.map RelayPushResult.externalId := by
      intro hmem
      obtain ⟨o, ho, hid⟩ := List.mem_map.mp hmem
      have hnot := List.find?_eq_none.mp hnone o ho
      simp [hid] at hnot
    refine ⟨?_, ?_, ?_, hpulled ▸ h.pulled_le⟩
    · rw [heq, List.map_append, List.map_singleton]
      exact h.keyed.append (List.nodup_singleton _) (by simpa [bufferedResult] using hnew)
    · rw [heq]
      intro o ho
      rcases List.mem_append.mp ho with hold | hlast
      · exact h.stored o hold
      · rwa [List.mem_singleton.mp hlast]
    · rw [heq, List.length_append, List.length_singleton]
      exact hroom
  · have hkeys : (s.pushResults.map fun o =>
        if o.externalId = r.externalId then bufferedResult r else o).map RelayPushResult.externalId
          = s.pushResults.map RelayPushResult.externalId := by
      rw [List.map_map]
      refine List.map_congr_left fun o _ => ?_
      by_cases hid : o.externalId = r.externalId <;> simp [hid, bufferedResult]
    refine ⟨?_, ?_, ?_, hpulled ▸ h.pulled_le⟩
    · rw [heq, hkeys]
      exact h.keyed
    · rw [heq]
      intro o ho
      obtain ⟨o, hold, rfl⟩ := List.mem_map.mp ho
      split
      · exact hstored
      · exact h.stored o hold
    · rw [heq, List.length_map]
      exact h.results_le

theorem RelayInner.Bounded.resultFor?_bufferResult (h : s.Bounded) (r : BatchItemResult)
    (ho : s.resultFor? x = some o) :
    ∃ o', (s.bufferResult r).2.resultFor? x = some o'
      ∧ (o.remoteId.isSome → o'.remoteId.isSome) ∧ (o' = o ∨ o' = bufferedResult r) := by
  have h' := h.bufferResult r
  obtain ⟨hmem, hx⟩ := h.resultFor?_eq_some_iff.mp ho
  rcases s.bufferResult_cases r with heq | ⟨-, -, -, heq⟩ | ⟨-, ⟨o₁, ho₁, hbetter⟩, heq⟩
  · exact ⟨o, by rwa [heq], id, .inl rfl⟩
  · refine ⟨o, h'.resultFor?_eq_some_iff.mpr ⟨?_, hx⟩, id, .inl rfl⟩
    rw [heq]
    exact List.mem_append_left _ hmem
  · have hmap := List.mem_map_of_mem (f := fun o =>
      if o.externalId = r.externalId then bufferedResult r else o) hmem
    rw [← heq] at hmap
    by_cases hid : o.externalId = r.externalId
    · -- the result in the way is the one that was found
      have hsame : o₁ = o := by
        rw [← hid, hx, ho] at ho₁
        exact (Option.some.inj ho₁).symm
      rw [if_pos hid] at hmap
      refine ⟨_, h'.resultFor?_eq_some_iff.mpr ⟨hmap, hid.symm.trans hx⟩, fun hknown => ?_,
        .inr rfl⟩
      rcases hbetter with hsome | hnone
      · exact hsome
      · rw [← hsame, hnone] at hknown
        exact absurd hknown (by simp)
    · rw [if_neg hid] at hmap
      exact ⟨o, h'.resultFor?_eq_some_iff.mpr ⟨hmap, hx⟩, id, .inl rfl⟩

/-! ## One answer -/

theorem RelayInner.Bounded.bufferResults (h : s.Bounded)
    (rs : List BatchItemResult) : (s.bufferResults rs).2.Bounded := by
  induction rs generalizing s with
  | nil => exact h
  | cons r rs ih => exact ih (h.bufferResult r)

theorem RelayInner.Bounded.resultFor?_bufferResults (h : s.Bounded) (rs : List BatchItemResult)
    (ho : s.resultFor? x = some o) :
    ∃ o', (s.bufferResults rs).2.resultFor? x = some o'
      ∧ (o.remoteId.isSome → o'.remoteId.isSome) ∧ (o' = o ∨ ∃ r ∈ rs, o' = bufferedResult r) := by
  induction rs generalizing s o with
  | nil => exact ⟨o, ho, id, .inl rfl⟩
  | cons r rs ih =>
    obtain ⟨o₁, ho₁, hknown₁, hfrom₁⟩ := h.resultFor?_bufferResult r ho
    obtain ⟨o', ho', hknown, hfrom⟩ := ih (h.bufferResult r) ho₁
    refine ⟨o', ho', fun hk => hknown (hknown₁ hk), ?_⟩
    rcases hfrom with rfl | ⟨r', hr', rfl⟩
    · rcases hfrom₁ with rfl | rfl
      · exact .inl rfl
      · exact .inr ⟨r, List.mem_cons_self, rfl⟩
    · exact .inr ⟨r', List.mem_cons_of_mem r hr', rfl⟩

theorem RelayInner.length_bufferPage_le (s : RelayInner) (page : List RemoteEntry)
    (h : s.pulled.length ≤ maxBufferedItemsPerSession) :
    (s.bufferPage page).2.pulled.length ≤ maxBufferedItemsPerSession := by
  induction page generalizing s with
  | nil => exact h
  | cons e page ih =>
    rw [RelayInner.bufferPage]
    split
    · exact ih _ h
    · split
      case isTrue => exact h
      case isFalse hroom =>
        refine ih _ ?_
        rw [List.length_append, List.length_singleton]
        omega

/-! ## One step -/

theorem RelayInner.Bounded.of_sublist {s s' : RelayInner} (h : s.Bounded)
    (hresults : s'.pushResults.Sublist s.pushResults)
    (hpulled : s'.pulled.length ≤ maxBufferedItemsPerSession) : s'.Bounded where
  keyed := h.keyed.sublist (hresults.map _)
  stored r hr := h.stored r (hresults.subset hr)
  results_le := hresults.length_le.trans h.results_le
  pulled_le := hpulled

theorem bounded_sessionStep (h : s.Bounded) (step : SessionStep) :
    (sessionStep s step).Bounded := by
  cases step with
  | seed sinceCursor =>
    exact h.of_sublist (by rw [sessionStep, RelayInner.seedCursor_pushResults])
      (by rw [sessionStep, RelayInner.seedCursor_pulled]; exact h.pulled_le)
  | push now answer =>
    cases answer with
    | none => exact ⟨h.keyed, h.stored, h.results_le, h.pulled_le⟩
    | some outcomes =>
      have hbuf := h.bufferResults (outcomes.filterMap ItemOutcome.result?)
      exact ⟨hbuf.keyed, hbuf.stored, hbuf.results_le, hbuf.pulled_le⟩
  | catchUp now answer =>
    cases answer with
    | none => exact ⟨h.keyed, h.stored, h.results_le, h.pulled_le⟩
    | some page =>
      refine h.of_sublist (by rw [sessionStep, RelayInner.finishCatchUp_pushResults]) ?_
      rw [sessionStep, RelayInner.finishCatchUp]
      split
      · exact h.pulled_le
      · exact s.length_bufferPage_le page h.pulled_le
  | poll => exact h
  | ack pushIds pullIds =>
    exact h.of_sublist List.filter_sublist ((List.length_filter_le _ _).trans h.pulled_le)

/-- A step that does not acknowledge a result leaves it, or a better one it reports. -/
theorem resultFor?_sessionStep (h : s.Bounded) {step : SessionStep} (ho : s.resultFor? x = some o)
    (hack : ¬ step.Acks x) :
    ∃ o', (sessionStep s step).resultFor? x = some o'
      ∧ (o.remoteId.isSome → o'.remoteId.isSome) ∧ (o' = o ∨ step.Reports o') := by
  have hsame (s' : RelayInner) (hs' : s'.pushResults = s.pushResults) :
      s'.resultFor? x = some o := by
    rw [RelayInner.resultFor?, hs']
    exact ho
  -- only a push writes results, and only an acknowledgement takes them away
  cases step with
  | seed sinceCursor =>
    exact ⟨o, hsame _ (RelayInner.seedCursor_pushResults s sinceCursor), id, .inl rfl⟩
  | push now answer =>
    cases answer with
    | none => exact ⟨o, hsame _ rfl, id, .inl rfl⟩
    | some outcomes =>
      obtain ⟨o', ho', hknown, hfrom⟩ :=
        h.resultFor?_bufferResults (outcomes.filterMap ItemOutcome.result?) ho
      refine ⟨o', ho', hknown, hfrom.imp id ?_⟩
      rintro ⟨r, hr, rfl⟩
      obtain ⟨outcome, houtcome, hresult⟩ := List.mem_filterMap.mp hr
      obtain ⟨externalId, hid, rfl⟩ := Option.map_eq_some_iff.mp hresult
      show _ ∈ outcomes
      rwa [bufferedResult, ← hid]
  | catchUp now answer =>
    cases answer with
    | none => exact ⟨o, hsame _ rfl, id, .inl rfl⟩
    | some page => exact ⟨o, hsame _ (s.finishCatchUp_pushResults now page), id, .inl rfl⟩
  | poll => exact ⟨o, ho, id, .inl rfl⟩
  | ack pushIds pullIds =>
    obtain ⟨hmem, hx⟩ := h.resultFor?_eq_some_iff.mp ho
    refine ⟨o, (bounded_sessionStep h (.ack pushIds pullIds)).resultFor?_eq_some_iff.mpr
      ⟨List.mem_filter.mpr ⟨hmem, ?_⟩, hx⟩, id, .inl rfl⟩
    rw [hx]
    exact decide_eq_true hack

/-! ## Runs -/

theorem bounded_new : RelayInner.new.Bounded :=
  ⟨List.nodup_nil, fun _ h => absurd h List.not_mem_nil, Nat.zero_le _, Nat.zero_le _⟩

theorem bounded_run (h : s.Bounded) (steps : List SessionStep) :
    (run sessionStep s steps).Bounded := by
  induction steps generalizing s with
  | nil => exact h
  | cons step steps ih => exact ih (bounded_sessionStep h step)

theorem bounded_sessionAfter (steps : List SessionStep) : (sessionAfter steps).Bounded :=
  bounded_run bounded_new steps

theorem resultFor?_run (h : s.Bounded) {steps : List SessionStep} (ho : s.resultFor? x = some o)
    (hack : ∀ step ∈ steps, ¬ step.Acks x) :
    ∃ o', (run sessionStep s steps).resultFor? x = some o'
      ∧ (o.remoteId.isSome → o'.remoteId.isSome) ∧ (o' = o ∨ ∃ step ∈ steps, step.Reports o') := by
  induction steps generalizing s o with
  | nil => exact ⟨o, ho, id, .inl rfl⟩
  | cons step steps ih =>
    obtain ⟨o₁, ho₁, hknown₁, hfrom₁⟩ :=
      resultFor?_sessionStep h ho (hack step List.mem_cons_self)
    obtain ⟨o', ho', hknown, hfrom⟩ := ih (bounded_sessionStep h step) ho₁
      fun step' hmem => hack step' (List.mem_cons_of_mem step hmem)
    refine ⟨o', ho', fun hk => hknown (hknown₁ hk), ?_⟩
    rcases hfrom with rfl | ⟨step', hmem, hreports⟩
    · exact hfrom₁.imp id fun hreports => ⟨step, List.mem_cons_self, hreports⟩
    · exact .inr ⟨step', List.mem_cons_of_mem step hmem, hreports⟩

/-- In every run of a session the buffers keep their bounds and hold outcomes that were
    stored only; a result is there for every poll, and what is known of its remote id is
    kept, until an ack names it. -/
theorem pushResults_law (steps more : List SessionStep) :
    (sessionAfter steps).Bounded ∧ KeepsRemoteIds steps more ∧ Offers steps more := by
  have hbounded := bounded_sessionAfter steps
  have hafter (x : String) (r : RelayPushResult) (hr : (sessionAfter steps).resultFor? x = some r)
      (hack : ∀ step ∈ more, ¬ step.Acks x) :
      ∃ r', (sessionAfter (steps ++ more)).resultFor? x = some r'
        ∧ (r.remoteId.isSome → r'.remoteId.isSome)
        ∧ (r' = r ∨ ∃ step ∈ more, step.Reports r') := by
    rw [sessionAfter, run_append]
    exact resultFor?_run hbounded hr hack
  refine ⟨hbounded, fun x r hr hknown hack => ?_, fun r hr hack => ?_⟩
  · obtain ⟨r', hr', hk, -⟩ := hafter x r hr hack
    exact ⟨r', hr', hk hknown⟩
  · obtain ⟨r', hr', -, hfrom⟩ :=
      hafter r.externalId r (hbounded.resultFor?_eq_some_iff.mpr ⟨hr, rfl⟩) hack
    obtain ⟨hmem, hid⟩ := (bounded_sessionAfter (steps ++ more)).resultFor?_eq_some_iff.mp hr'
    exact ⟨r', hmem, hid, hfrom⟩

/-- A created entry is acknowledged, and a repeated push of it answered without an id. -/
theorem not_neverForgets_of_ack :
    ¬ ∀ steps more, (sessionAfter steps).Bounded ∧ NeverForgets steps more ∧ Offers steps more := by
  intro h
  have hforgets := (h [.push 0 (some [⟨"created", some "a", some "1"⟩])]
    [.ack ["a"] [], .push 1 (some [⟨"skipped", some "a", none⟩])]).2.1
  have hknown := hforgets "a" ⟨"a", some "1", "created"⟩ (by decide) ⟨"a", none, "skipped"⟩ (by decide)
  exact absurd (hknown rfl) (by decide)

end Relay
end Inkentry
