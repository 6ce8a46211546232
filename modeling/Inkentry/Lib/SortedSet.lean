/-
  Inkentry.Lib.SortedSet

  Lists kept sorted and duplicate-free, the way a vector is when it is used as
  a small set: `sortDedup` sorts a list and drops adjacent repeats, and
  `unionInto` is the union of two such vectors.

  The one fact everything else rests on is extensionality: a strictly sorted
  list is determined by its members (`eq_of_mem_iff`).  `sortDedup` therefore
  depends only on the set of its argument's elements, which makes `unionInto`
  commutative, associative and idempotent up to that set.
-/

import Mathlib.Data.List.Sort
import Mathlib.Data.List.Destutter
import Mathlib.Order.Lattice

namespace SortedSet

variable {α : Type*} [LinearOrder α]

/-! ## Sort, then drop adjacent repeats -/

variable {l : List α}

/-- Sort a list and drop adjacent repeats. -/
def sortDedup (l : List α) : List α :=
  (l.insertionSort (· ≤ ·)).destutter (· ≠ ·)

/-- A list is canonical when it is strictly increasing. -/
def Canonical (l : List α) : Prop := l.Pairwise (· < ·)

instance (l : List α) : Decidable (Canonical l) :=
  inferInstanceAs (Decidable (l.Pairwise (· < ·)))

/-- Every element survives the removal of adjacent repeats, one copy at least. -/
theorem mem_destutter'_ne {a b : α} : a ∈ l.destutter' (· ≠ ·) b ↔ a ∈ b :: l := by
  induction l generalizing b with
  | nil => simp
  | cons c l ih =>
    by_cases hbc : b ≠ c
    · rw [List.destutter'_cons_pos l hbc, List.mem_cons, ih]
      simp
    · rw [List.destutter'_cons_neg l hbc, ih]
      have hbc' : b = c := not_not.mp hbc
      simp [hbc']

theorem mem_sortDedup {a : α} : a ∈ sortDedup l ↔ a ∈ l := by
  have hsort : a ∈ l.insertionSort (· ≤ ·) ↔ a ∈ l := List.mem_insertionSort (· ≤ ·)
  rw [← hsort]
  unfold sortDedup
  cases l.insertionSort (· ≤ ·) with
  | nil => simp
  | cons b l' => exact mem_destutter'_ne

/-- The result is strictly increasing: sorted, and no two neighbours equal. -/
theorem sortDedup_canonical (l : List α) : Canonical (sortDedup l) := by
  have hsorted : (sortDedup l).Pairwise (· ≤ ·) :=
    (List.pairwise_insertionSort (· ≤ ·) l).sublist (List.destutter_sublist _ _)
  have hne : (sortDedup l).IsChain (· ≠ ·) := List.isChain_destutter _ _
  have hlt : (sortDedup l).IsChain (· < ·) := by
    rw [List.isChain_iff_getElem] at hne ⊢
    intro i hi
    exact lt_of_le_of_ne (List.pairwise_iff_getElem.mp hsorted i (i + 1) _ hi (by omega)) (hne i hi)
  exact hlt.pairwise

/-! ## Extensionality -/

theorem eq_of_mem_iff {l l' : List α} (hl : Canonical l) (hl' : Canonical l')
    (h : ∀ a, a ∈ l ↔ a ∈ l') : l = l' := by
  have hnd : l.Nodup := hl.imp fun hab => ne_of_lt hab
  have hnd' : l'.Nodup := hl'.imp fun hab => ne_of_lt hab
  have hperm : l.Perm l' := (List.perm_ext_iff_of_nodup hnd hnd').mpr h
  exact hperm.eq_of_pairwise (fun _ _ _ _ hab hba => absurd hab (lt_asymm hba)) hl hl'

theorem sortDedup_congr {l l' : List α} (h : ∀ a, a ∈ l ↔ a ∈ l') :
    sortDedup l = sortDedup l' :=
  eq_of_mem_iff (sortDedup_canonical l) (sortDedup_canonical l') fun a => by
    rw [mem_sortDedup, mem_sortDedup, h a]

/-- A list is its own normal form exactly when it is canonical. -/
theorem sortDedup_eq_self_iff : sortDedup l = l ↔ Canonical l := by
  constructor
  · intro h
    rw [← h]
    exact sortDedup_canonical l
  · intro h
    exact eq_of_mem_iff (sortDedup_canonical l) h fun a => mem_sortDedup

/-! ## Union into a base vector -/

/-- Append, sort, drop repeats: the union of `base` and `other`. -/
def unionInto (base other : List α) : List α := sortDedup (base ++ other)

/-- Folding unions over a non-empty list of vectors normalises the union of all. -/
theorem foldl_unionInto (base : List α) (l : List (List α)) (hne : l ≠ []) :
    l.foldl unionInto base = sortDedup (base ++ l.flatten) := by
  induction l generalizing base with
  | nil => exact absurd rfl hne
  | cons x l ih =>
    rw [List.foldl_cons]
    by_cases hl : l = []
    · subst hl
      simp [unionInto]
    · rw [ih (unionInto base x) hl]
      apply sortDedup_congr
      intro a
      simp only [List.mem_append, unionInto, mem_sortDedup, List.flatten_cons]
      tauto

end SortedSet
