/-
  Inkentry.Lib.SplitQueue

  A queue of batches whose front is either taken or cut in two: a batch that is
  oversized goes back as its two halves, in order, and is looked at again.

  Whatever is oversized, the batches that are taken are the pieces of those
  that were queued (`plan`), in order, and together they hold what those held.
  Every turn of the loop lowers `load`.
-/

import Mathlib.Algebra.GroupWithZero.Nat
import Mathlib.Data.List.Basic

namespace SplitQueue

variable {α : Type*}

/-- The list in runs of `n`, the last one shorter. -/
def chunks (n : ℕ) (l : List α) : List (List α) :=
  if l = [] ∨ n = 0 then [] else l.take n :: chunks n (l.drop n)
termination_by l.length
decreasing_by
  have hne : l ≠ [] := fun h => ‹¬ (l = [] ∨ n = 0)› (Or.inl h)
  have hpos := List.length_pos_of_ne_nil hne
  have hn : n ≠ 0 := fun h => ‹¬ (l = [] ∨ n = 0)› (Or.inr h)
  rw [List.length_drop]
  omega

theorem flatten_chunks {n : ℕ} (hn : 0 < n) (l : List α) : (chunks n l).flatten = l := by
  induction l using chunks.induct n with
  | case1 l hstop =>
    rw [chunks, if_pos hstop]
    obtain rfl | hzero := hstop
    · rfl
    · omega
  | case2 l hgo ih =>
    rw [chunks, if_neg hgo, List.flatten_cons, ih, List.take_append_drop]

theorem ne_nil_of_mem_chunks {n : ℕ} {l run : List α} (h : run ∈ chunks n l) : run ≠ [] := by
  induction l using chunks.induct n with
  | case1 l hstop =>
    rw [chunks, if_pos hstop] at h
    cases h
  | case2 l hgo ih =>
    obtain ⟨hne, hn⟩ := not_or.mp hgo
    rw [chunks, if_neg hgo, List.mem_cons] at h
    obtain rfl | hrest := h
    · intro hnil
      have hlen := congrArg List.length hnil
      have hpos := List.length_pos_of_ne_nil hne
      rw [List.length_take, List.length_nil] at hlen
      omega
    · exact ih hrest

/-! ## Pieces -/

variable (oversized : List α → Bool)

/-- What becomes of one batch. -/
def pieces (batch : List α) : List (List α) :=
  if oversized batch = true ∧ 1 < batch.length then
    pieces (batch.take (batch.length / 2)) ++ pieces (batch.drop (batch.length / 2))
  else [batch]
termination_by batch.length
decreasing_by
  · rw [List.length_take]
    omega
  · rw [List.length_drop]
    omega

/-- The batches that a queue comes to. -/
def plan (queue : List (List α)) : List (List α) := queue.flatMap (pieces oversized)

variable {oversized}
variable {queue : List (List α)}
variable {batch : List α}

@[simp] theorem plan_nil : plan oversized [] = [] := rfl

theorem plan_cons_of_split (h : oversized batch = true ∧ 1 < batch.length) :
    plan oversized (batch :: queue)
      = plan oversized (batch.take (batch.length / 2) :: batch.drop (batch.length / 2) :: queue) := by
  simp only [plan, List.flatMap_cons]
  rw [pieces, if_pos h, List.append_assoc]

theorem plan_cons_of_fits (h : ¬ (oversized batch = true ∧ 1 < batch.length)) :
    plan oversized (batch :: queue) = batch :: plan oversized queue := by
  simp only [plan, List.flatMap_cons]
  rw [pieces, if_neg h, List.singleton_append]

theorem flatten_pieces (batch : List α) : (pieces oversized batch).flatten = batch := by
  induction batch using pieces.induct oversized with
  | case1 batch hsplit ihFront ihBack =>
    rw [pieces, if_pos hsplit, List.flatten_append, ihFront, ihBack, List.take_append_drop]
  | case2 batch hfits =>
    rw [pieces, if_neg hfits, List.flatten_singleton]

theorem ne_nil_of_mem_pieces {batch piece : List α} (hne : batch ≠ [])
    (h : piece ∈ pieces oversized batch) : piece ≠ [] := by
  induction batch using pieces.induct oversized with
  | case1 batch hsplit ihFront ihBack =>
    rw [pieces, if_pos hsplit, List.mem_append] at h
    have hlong := hsplit.2
    obtain hfront | hback := h
    · refine ihFront (List.ne_nil_of_length_pos ?_) hfront
      rw [List.length_take]
      omega
    · refine ihBack (List.ne_nil_of_length_pos ?_) hback
      rw [List.length_drop]
      omega
  | case2 batch hfits =>
    rw [pieces, if_neg hfits, List.mem_singleton] at h
    exact h ▸ hne

theorem flatten_plan (queue : List (List α)) : (plan oversized queue).flatten = queue.flatten := by
  induction queue with
  | nil => rfl
  | cons batch queue ih =>
    rw [plan, List.flatMap_cons, List.flatten_append, flatten_pieces, List.flatten_cons]
    exact congrArg (batch ++ ·) ih

/-! ## Turns of the loop -/

/-- How many turns the queue is worth at most. -/
def load (queue : List (List α)) : ℕ := (queue.map fun batch => max 1 (2 * batch.length - 1)).sum

theorem load_split_lt (h : 1 < batch.length) :
    load (batch.take (batch.length / 2) :: batch.drop (batch.length / 2) :: queue)
      < load (batch :: queue) := by
  simp only [load, List.map_cons, List.sum_cons, List.length_take, List.length_drop]
  omega

theorem load_tail_lt : load queue < load (batch :: queue) := by
  simp only [load, List.map_cons, List.sum_cons]
  omega

end SplitQueue
