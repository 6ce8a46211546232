/-
  Inkentry.Lib.Thinning

  A list without some of its elements, where only elements of one kind may be
  missing.  What is taken up to an element that is not of that kind is thinned
  too, and a list with no such element is as it was.
-/

import Mathlib.Data.List.DropRight
import Mathlib.Data.List.TakeWhile

/-- The second list is the first without some of the elements that may be missing. -/
inductive Thins {α : Type*} (p : α → Bool) : List α → List α → Prop
  | nil : Thins p [] []
  | keep (c : α) {l m : List α} (h : Thins p l m) : Thins p (c :: l) (c :: m)
  | drop (c : α) {l m : List α} (hc : p c = true) (h : Thins p l m) : Thins p (c :: l) m

namespace Thins

variable {α : Type*} {p q : α → Bool} {l m n l' m' : List α} {c : α}

theorem refl (l : List α) : Thins p l l := by
  induction l with
  | nil => exact .nil
  | cons c l ih => exact .keep c ih

theorem append (h : Thins p l m) (h' : Thins p l' m') : Thins p (l ++ l') (m ++ m') := by
  induction h with
  | nil => exact h'
  | keep c _ ih => exact .keep c ih
  | drop c hc _ ih => exact .drop c hc ih

theorem of_all (h : ∀ c ∈ l, p c = true) : Thins p l [] := by
  induction l with
  | nil => exact .nil
  | cons c l ih =>
    exact .drop c (h c List.mem_cons_self) (ih fun d hd => h d (List.mem_cons_of_mem _ hd))

theorem trans (h : Thins p l m) (h' : Thins p m n) : Thins p l n := by
  induction h generalizing n with
  | nil => exact h'
  | keep c _ ih =>
    cases h' with
    | keep _ h' => exact .keep c (ih h')
    | drop _ hc h' => exact .drop c hc (ih h')
  | drop c hc _ ih => exact .drop c hc (ih h')

theorem reverse (h : Thins p l m) : Thins p l.reverse m.reverse := by
  induction h with
  | nil => exact .nil
  | keep c _ ih =>
    rw [List.reverse_cons, List.reverse_cons]
    exact ih.append (.keep c .nil)
  | drop c hc _ ih =>
    have hdrop := ih.append (.drop c hc .nil)
    rwa [List.append_nil, ← List.reverse_cons] at hdrop

theorem filter (hq : ∀ c, q c = false → p c = true) (l : List α) : Thins p l (l.filter q) := by
  induction l with
  | nil => exact .nil
  | cons c l ih =>
    rw [List.filter_cons]
    split
    case isTrue => exact .keep c ih
    case isFalse h => exact .drop c (hq c (eq_false_of_ne_true h)) ih

theorem rdropWhile (p : α → Bool) (l : List α) : Thins p l (l.rdropWhile p) := by
  have htail : Thins p (l.rtakeWhile p) [] := of_all fun c hc => List.mem_rtakeWhile_imp hc
  have happend := (refl (l.rdropWhile p)).append htail
  rwa [List.rdropWhile_append_rtakeWhile, List.append_nil] at happend

theorem takeWhile (hq : ∀ c, p c = true → q c = true) (h : Thins p l m) :
    Thins p (l.takeWhile q) (m.takeWhile q) := by
  induction h with
  | nil => exact .nil
  | keep c _ ih =>
    rw [List.takeWhile_cons, List.takeWhile_cons]
    split
    · exact .keep c ih
    · exact .nil
  | drop c hc _ ih =>
    rw [List.takeWhile_cons, if_pos (hq c hc)]
    exact .drop c hc ih

theorem rtakeWhile (hq : ∀ c, p c = true → q c = true) (h : Thins p l m) :
    Thins p (l.rtakeWhile q) (m.rtakeWhile q) :=
  (h.reverse.takeWhile hq).reverse

theorem eq_of_none (h : Thins p l m) (hnone : ∀ c ∈ l, p c = false) : m = l := by
  induction h with
  | nil => rfl
  | keep c _ ih => rw [ih fun d hd => hnone d (List.mem_cons_of_mem _ hd)]
  | drop c hc _ _ => exact absurd hc (by rw [hnone c List.mem_cons_self]; decide)

theorem mem (h : Thins p l m) (hmem : c ∈ l) (hc : p c = false) : c ∈ m := by
  induction h with
  | nil => exact hmem
  | keep d _ ih =>
    rcases List.mem_cons.mp hmem with rfl | hmem
    · exact List.mem_cons_self
    · exact List.mem_cons_of_mem _ (ih hmem)
  | drop d hd _ ih =>
    rcases List.mem_cons.mp hmem with rfl | hmem
    · exact absurd hd (by rw [hc]; decide)
    · exact ih hmem

theorem exists_of_cons (h : Thins p (c :: l) m) (hc : p c = false) : ∃ n, m = c :: n ∧ Thins p l n := by
  cases h with
  | keep _ h => exact ⟨_, rfl, h⟩
  | drop _ hdrop _ => exact absurd hdrop (by rw [hc]; decide)

end Thins
