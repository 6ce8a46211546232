/-
  Inkentry.Lib.WordRuns

  The longest stretches of a text whose elements all satisfy a predicate, in
  order: what is left of it when it is split at everything else and nothing
  empty is kept.

  Stretches for a narrower predicate are found inside the stretches for a wider
  one (`runs_eq_flatMap`), so two readers that disagree on what holds a word
  together still agree on the pieces.
-/

import Mathlib.Data.List.Forall2
import Mathlib.Data.List.TakeWhile

namespace WordRuns

variable {α β : Type*} {p q : α → Bool}

def runs (p : α → Bool) (text : List α) : List (List α) :=
  (text.splitOnP fun c => !p c).filter fun run => !run.isEmpty

/-! ## Cutting -/

/-- A text is one stretch, or a stretch with something else behind it. -/
theorem runs_induction {motive : List α → Prop} (p : α → Bool)
    (all : ∀ x, (∀ c ∈ x, p c = true) → motive x)
    (cut : ∀ x c y, (∀ d ∈ x, p d = true) → p c = false → motive y → motive (x ++ c :: y))
    (text : List α) : motive text := by
  induction hn : text.length using Nat.strongRecOn generalizing text with
  | ind n ih =>
    cases hrest : text.dropWhile p with
    | nil => exact all text (List.dropWhile_eq_nil_iff.mp hrest)
    | cons c y =>
      have happ : text = text.takeWhile p ++ c :: y := by
        rw [← hrest, List.takeWhile_append_dropWhile]
      have hc : p c = false := by
        have hhead := List.head_dropWhile_not p (l := text) (by simp [hrest])
        simpa [hrest] using hhead
      have hlen : y.length < n := by
        rw [← hn, happ, List.length_append, List.length_cons]
        omega
      rw [happ]
      exact cut _ c y (fun d hd => List.mem_takeWhile_imp hd) hc (ih y.length hlen y rfl)

theorem runs_append_cons {c : α} (hc : p c = false) (x y : List α) :
    runs p (x ++ c :: y) = runs p x ++ runs p y := by
  rw [runs, List.splitOnP_append_cons x y (by simp [hc]), List.filter_append, runs, runs]

theorem runs_of_forall {x : List α} (h : ∀ c ∈ x, p c = true) :
    runs p x = if x.isEmpty then [] else [x] := by
  rw [runs, List.splitOnP_eq_singleton fun c hc => by simp [h c hc]]
  cases x with
  | nil => rfl
  | cons c x => rfl

theorem runs_of_forall_of_ne_nil {x : List α} (h : ∀ c ∈ x, p c = true) (hne : x ≠ []) :
    runs p x = [x] := by
  rw [runs_of_forall h, if_neg (by simpa using hne)]

/-- A stretch is not empty, lies in the text, and has nothing else in it. -/
theorem mem_runs {text w : List α} (h : w ∈ runs p text) :
    w ≠ [] ∧ (∀ c ∈ w, p c = true) ∧ ∀ c ∈ w, c ∈ text := by
  induction text using runs_induction p with
  | all x hx =>
    rw [runs_of_forall hx] at h
    split at h
    · cases h
    case isFalse hne =>
      obtain rfl := List.mem_singleton.mp h
      exact ⟨by simpa using hne, hx, fun c hc => hc⟩
  | cut x c y hx hc ih =>
    rw [runs_append_cons hc, runs_of_forall hx] at h
    rcases List.mem_append.mp h with hmem | hmem
    · split at hmem
      · cases hmem
      case isFalse hne =>
        obtain rfl := List.mem_singleton.mp hmem
        exact ⟨by simpa using hne, hx, fun d hd => List.mem_append_left _ hd⟩
    · obtain ⟨hne, hall, hin⟩ := ih hmem
      exact ⟨hne, hall, fun d hd => List.mem_append_right _ (List.mem_cons_of_mem _ (hin d hd))⟩

theorem runs_eq_nil_iff {text : List α} : runs p text = [] ↔ ∀ c ∈ text, p c = false := by
  induction text using runs_induction p with
  | all x hx =>
    rw [runs_of_forall hx]
    cases x with
    | nil => simp
    | cons c x =>
      refine iff_of_false (by simp) ?_
      intro h
      have hc := hx c List.mem_cons_self
      rw [h c List.mem_cons_self] at hc
      cases hc
  | cut x c y hx hc ih =>
    rw [runs_append_cons hc, List.append_eq_nil_iff, ih, runs_of_forall hx]
    cases x with
    | nil => simp [hc]
    | cons d x =>
      refine iff_of_false (by simp) ?_
      intro h
      have hd := hx d List.mem_cons_self
      rw [h d List.mem_cons_self] at hd
      cases hd

theorem runs_eq_flatMap (hpq : ∀ c, p c = true → q c = true) (text : List α) :
    runs p text = (runs q text).flatMap (runs p) := by
  induction text using runs_induction q with
  | all x hx =>
    rw [runs_of_forall hx]
    cases x with
    | nil => rfl
    | cons c x => exact (List.flatMap_singleton _ _).symm
  | cut x c y hx hc ih =>
    have hpc : p c = false := by
      cases hp : p c with
      | false => rfl
      | true =>
        rw [hpq c hp] at hc
        cases hc
    rw [runs_append_cons hpc, runs_append_cons hc, List.flatMap_append, ih, runs_of_forall hx]
    cases x with
    | nil => rfl
    | cons d x => rw [List.isEmpty_cons, if_neg (by simp), List.flatMap_singleton]

/-! ## Element by element -/

theorem map_modifyHead (f : α → β) (c : α) (pieces : List (List α)) :
    (pieces.modifyHead (c :: ·)).map (List.map f) = (pieces.map (List.map f)).modifyHead (f c :: ·) := by
  cases pieces <;> rfl

theorem filter_map_map (f : α → β) (pieces : List (List α)) :
    (pieces.filter fun run => !run.isEmpty).map (List.map f)
      = (pieces.map (List.map f)).filter fun run => !run.isEmpty := by
  rw [List.filter_map]
  congr 1
  refine List.filter_congr ?_
  intro run _
  show (!run.isEmpty) = !(run.map f).isEmpty
  rw [List.isEmpty_map]

/-- Texts that agree element by element, on what is a stretch and on what is read of it, are
    read alike. -/
theorem map_runs_congr {f : α → β} {x y : List α}
    (h : List.Forall₂ (fun c d => p c = p d ∧ f c = f d) x y) :
    (runs p x).map (List.map f) = (runs p y).map (List.map f) := by
  have hsplit : (x.splitOnP fun c => !p c).map (List.map f)
      = (y.splitOnP fun c => !p c).map (List.map f) := by
    induction h with
    | nil => rfl
    | @cons c d x y hcd _ ih =>
      rw [List.splitOnP_cons_eq_if_modifyHead, List.splitOnP_cons_eq_if_modifyHead, hcd.1]
      split
      · rw [List.map_cons, List.map_cons, ih]
      · rw [map_modifyHead, map_modifyHead, ih, hcd.2]
  rw [runs, runs, filter_map_map, filter_map_map, hsplit]

end WordRuns
