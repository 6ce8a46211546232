/-
  Inkentry.Lib.EventStream

  Events in a text, each ended by an empty line, that are handled while the text
  arrives chunk by chunk.  A step may return at once; else it hands its state to
  the next event.

  Handling the events as the chunks arrive is handling those of the joined text
  (`readLoop_chunks`), and a text that was put together from events is handled
  event by event (`drain_events`).
-/

import Mathlib.Data.List.Basic

namespace EventStream

/-! ## Cutting the first event off -/

variable {text event rest : List Char}

/-- The text before the first empty line, and the text after it. -/
def cutEvent : List Char → Option (List Char × List Char)
  | [] => none
  | [_] => none
  | c :: d :: rest =>
    if c = '\n' ∧ d = '\n' then some ([], rest)
    else (cutEvent (d :: rest)).map fun (event, more) => (c :: event, more)

/-- The text may stand before an empty line as one event. -/
def IsEvent (text : List Char) : Prop := cutEvent (text ++ ['\n']) = none

instance (text : List Char) : Decidable (IsEvent text) := by unfold IsEvent; infer_instance

/-- An event as it stands in the stream. -/
def frame (event : List Char) : List Char := event ++ ['\n', '\n']

theorem cutEvent_cons (c : Char) (text : List Char) :
    cutEvent (c :: text) = if c = '\n' ∧ text.head? = some '\n' then some ([], text.tail)
      else (cutEvent text).map fun (event, more) => (c :: event, more) := by
  cases text with
  | nil => simp [cutEvent]
  | cons d text => simp [cutEvent]

theorem eq_of_cutEvent (h : cutEvent text = some (event, rest)) : text = frame event ++ rest := by
  induction text generalizing event with
  | nil => exact absurd h (by simp [cutEvent])
  | cons c text ih =>
    rw [cutEvent_cons] at h
    split at h
    case isTrue hlf =>
      obtain ⟨rfl, rfl⟩ := Prod.mk.inj (Option.some.inj h)
      rw [hlf.1]
      exact congrArg ('\n' :: ·) (List.eq_cons_of_mem_head? hlf.2)
    case isFalse =>
      obtain ⟨⟨event, more⟩, hcut, heq⟩ := Option.map_eq_some_iff.mp h
      obtain ⟨rfl, rfl⟩ := Prod.mk.inj heq
      rw [ih hcut]
      rfl

theorem cutEvent_append (h : cutEvent text = some (event, rest))
    (more : List Char) : cutEvent (text ++ more) = some (event, rest ++ more) := by
  induction text generalizing event with
  | nil => exact absurd h (by simp [cutEvent])
  | cons c text ih =>
    rw [cutEvent_cons] at h
    rw [List.cons_append, cutEvent_cons]
    split at h
    case isTrue hlf =>
      obtain ⟨rfl, rfl⟩ := Prod.mk.inj (Option.some.inj h)
      cases text with
      | nil => exact absurd hlf.2 (by simp)
      | cons d text => exact if_pos hlf
    case isFalse hlf =>
      obtain ⟨⟨event, more'⟩, hcut, heq⟩ := Option.map_eq_some_iff.mp h
      obtain ⟨rfl, rfl⟩ := Prod.mk.inj heq
      have hne : text ≠ [] := by
        rintro rfl
        exact absurd hcut (by simp [cutEvent])
      rw [List.head?_append_of_ne_nil _ hne, if_neg hlf, ih hcut]
      rfl

theorem cutEvent_frame {event : List Char} (h : IsEvent event) (rest : List Char) :
    cutEvent (frame event ++ rest) = some (event, rest) := by
  unfold frame
  induction event with
  | nil => rfl
  | cons c event ih =>
    rw [IsEvent, List.cons_append, cutEvent_cons] at h
    split at h
    case isTrue => exact absurd h (by simp)
    case isFalse hlf =>
      rw [List.cons_append, List.cons_append, cutEvent_cons]
      have hhead : ((event ++ ['\n', '\n']) ++ rest).head? = (event ++ ['\n']).head? := by
        cases event <;> rfl
      rw [hhead, if_neg hlf, ih (Option.map_eq_none_iff.mp h)]
      rfl

theorem cutEvent_eq_none_cons {c : Char} {text : List Char} :
    cutEvent (c :: text) = none
      ↔ ¬(c = '\n' ∧ text.head? = some '\n') ∧ cutEvent text = none := by
  rw [cutEvent_cons]
  split
  case isTrue h => exact iff_of_false (by simp) (fun hnot => hnot.1 h)
  case isFalse h => simp [h]

theorem cutEvent_eq_none_of_count {text : List Char} (h : text.count '\n' ≤ 1) :
    cutEvent text = none := by
  induction text with
  | nil => rfl
  | cons c text ih =>
    rw [cutEvent_eq_none_cons]
    have hle : text.count '\n' ≤ (c :: text).count '\n' := List.count_le_count_cons
    refine ⟨?_, ih (Nat.le_trans hle h)⟩
    rintro ⟨rfl, hhead⟩
    rw [List.count_cons_self, List.eq_cons_of_mem_head? hhead, List.count_cons_self] at h
    omega

theorem isEvent_of_not_mem {text : List Char} (h : '\n' ∉ text) : IsEvent text := by
  refine cutEvent_eq_none_of_count ?_
  rw [List.count_append, List.count_eq_zero_of_not_mem h]
  simp

/-! ## Handling events -/

section Handling

variable {σ ρ ε β : Type*} (step : σ → List Char → Except ρ σ) (decode : β → List Char)

/-- Handles the events that the text holds; what is left holds none. -/
def drain (s : σ) (buf : List Char) : Except ρ (σ × List Char) :=
  match _hcut : cutEvent buf with
  | none => .ok (s, buf)
  | some (event, rest) =>
    match step s event with
    | .error r => .error r
    | .ok s' => drain s' rest
termination_by buf.length
decreasing_by
  have hlen := congrArg List.length (eq_of_cutEvent _hcut)
  simp only [frame, List.length_append, List.length_cons] at hlen
  omega

/-- How reading a stream of chunks can end. -/
inductive Outcome (σ ρ ε : Type*)
  /-- A step returned. -/
  | returned (r : ρ)
  /-- A chunk could not be read. -/
  | failed (e : ε) (s : σ)
  /-- No more chunks. -/
  | ended (s : σ)

/-- Reads chunk by chunk, and handles the events that are complete. -/
def readLoop (s : σ) (buf : List Char) : List (Except ε β) → Outcome σ ρ ε
  | [] => .ended s
  | .error e :: _ => .failed e s
  | .ok chunk :: chunks =>
    match drain step s (buf ++ decode chunk) with
    | .error r => .returned r
    | .ok (s', buf') => readLoop s' buf' chunks

variable {step decode}

theorem drain_of_cutEvent_eq_none {s : σ} {buf : List Char} (h : cutEvent buf = none) :
    drain step s buf = .ok (s, buf) := by
  rw [drain]
  split
  case h_1 => rfl
  case h_2 event rest hcut => exact absurd (h.symm.trans hcut) (by simp)

theorem drain_of_cutEvent {s : σ} {buf event rest : List Char}
    (h : cutEvent buf = some (event, rest)) :
    drain step s buf = (step s event).bind fun s' => drain step s' rest := by
  rw [drain]
  split
  case h_1 hcut => exact absurd (hcut.symm.trans h) (by simp)
  case h_2 event' rest' hcut =>
    obtain ⟨rfl, rfl⟩ := Prod.mk.inj (Option.some.inj (hcut.symm.trans h))
    cases step s event' <;> rfl

theorem cutEvent_of_drain {s s' : σ} {buf buf' : List Char}
    (h : drain step s buf = .ok (s', buf')) : cutEvent buf' = none := by
  induction hn : buf.length using Nat.strongRecOn generalizing s buf with
  | ind n ih =>
    cases hcut : cutEvent buf with
    | none =>
      rw [drain_of_cutEvent_eq_none hcut] at h
      rw [← (Prod.mk.inj (Except.ok.inj h)).2]
      exact hcut
    | some cut =>
      obtain ⟨event, rest⟩ := cut
      rw [drain_of_cutEvent hcut] at h
      cases hstep : step s event with
      | error r =>
        rw [hstep] at h
        exact absurd h (by simp [Except.bind])
      | ok s₁ =>
        rw [hstep] at h
        have hlen := congrArg List.length (eq_of_cutEvent hcut)
        simp only [frame, List.length_append, List.length_cons] at hlen
        exact ih rest.length (by omega) h rfl

theorem drain_append (s : σ) (buf more : List Char) :
    drain step s (buf ++ more)
      = (drain step s buf).bind fun (s', buf') => drain step s' (buf' ++ more) := by
  induction hn : buf.length using Nat.strongRecOn generalizing s buf with
  | ind n ih =>
    cases hcut : cutEvent buf with
    | none =>
      rw [drain_of_cutEvent_eq_none hcut]
      rfl
    | some cut =>
      obtain ⟨event, rest⟩ := cut
      rw [drain_of_cutEvent hcut, drain_of_cutEvent (cutEvent_append hcut more)]
      cases hstep : step s event with
      | error r => rfl
      | ok s₁ =>
        have hlen := congrArg List.length (eq_of_cutEvent hcut)
        simp only [frame, List.length_append, List.length_cons] at hlen
        exact ih rest.length (by omega) s₁ rest rfl

theorem drain_events {events : List (List Char)} (h : ∀ e ∈ events, IsEvent e) (s : σ)
    (rest : List Char) :
    drain step s (events.flatMap frame ++ rest)
      = (events.foldlM step s).bind fun s' => drain step s' rest := by
  induction events generalizing s with
  | nil => rfl
  | cons event events ih =>
    rw [List.forall_mem_cons] at h
    rw [List.flatMap_cons, List.append_assoc, drain_of_cutEvent (cutEvent_frame h.1 _),
      List.foldlM_cons]
    cases hstep : step s event with
    | error r => rfl
    | ok s' => exact ih h.2 s'

/-- Chunk by chunk, the events of the joined text are handled. -/
theorem readLoop_chunks {s : σ} {buf : List Char} (hbuf : cutEvent buf = none) (chunks : List β)
    (later : List (Except ε β)) :
    readLoop step decode s buf (chunks.map .ok ++ later)
      = match drain step s (buf ++ chunks.flatMap decode) with
        | .error r => .returned r
        | .ok (s', buf') => readLoop step decode s' buf' later := by
  induction chunks generalizing s buf with
  | nil =>
    rw [List.flatMap_nil, List.append_nil, drain_of_cutEvent_eq_none hbuf]
    rfl
  | cons chunk chunks ih =>
    rw [List.map_cons, List.cons_append, List.flatMap_cons, ← List.append_assoc, drain_append,
      readLoop]
    cases hdrain : drain step s (buf ++ decode chunk) with
    | error r => rfl
    | ok done => exact ih (cutEvent_of_drain hdrain)

end Handling

end EventStream
