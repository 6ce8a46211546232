/-
  Inkentry.Lib.History

  A history that commits are only added to.  A commit is named by its position
  and names its parents, so what it descends from is settled when it is made.

  `Grows.add` says that commits go on having what the commits they descend from
  have, while each new one has what its parents have.
-/

import Mathlib.Data.Set.Basic
import Mathlib.Logic.Function.Basic

/-- Commits in the order they were made: what each descends from, which is earlier, and its
    tree. -/
structure History (α : Type*) where
  size : Nat
  past : Nat → List Nat
  tree : Nat → α
  past_lt : ∀ i, ∀ j ∈ past i, j < i
  past_trans : ∀ i, ∀ j ∈ past i, past j ⊆ past i
  past_nil : ∀ i, size ≤ i → past i = []

namespace History

variable {α β : Type*}

/-- The first commit is the second, or descends from it. -/
def Reaches (h : History α) (i j : Nat) : Prop := i = j ∨ j ∈ h.past i

instance (h : History α) (i j : Nat) : Decidable (h.Reaches i j) :=
  inferInstanceAs (Decidable (_ ∨ _))

/-- No commits; `tree` stands where there is none. -/
def empty (tree : α) : History α where
  size := 0
  past _ := []
  tree _ := tree
  past_lt _ _ hj := absurd hj List.not_mem_nil
  past_trans _ _ hj := absurd hj List.not_mem_nil
  past_nil _ _ := rfl

variable {h h' h'' : History α} {i j k : Nat}

theorem Reaches.refl (h : History α) (i : Nat) : h.Reaches i i := .inl rfl

theorem Reaches.trans (hij : h.Reaches i j) (hjk : h.Reaches j k) : h.Reaches i k := by
  rcases hij with rfl | hij
  · exact hjk
  rcases hjk with rfl | hjk
  · exact .inr hij
  · exact .inr (h.past_trans i j hij hjk)

theorem Reaches.lt_size (hij : h.Reaches i j) (hi : i < h.size) : j < h.size := by
  rcases hij with rfl | hij
  · exact hi
  · exact (h.past_lt i j hij).trans hi

/-! ## A new commit -/

variable {parents : List Nat}

/-- What a commit on some parents descends from; a parent that is not there counts for
    nothing. -/
def pastOn (h : History α) (parents : List Nat) : List Nat :=
  (parents.filter fun p => p < h.size).flatMap fun p => p :: h.past p

theorem mem_pastOn : j ∈ h.pastOn parents ↔ ∃ p ∈ parents, p < h.size ∧ h.Reaches p j := by
  simp only [pastOn, List.mem_flatMap, List.mem_filter, decide_eq_true_eq, List.mem_cons,
    and_assoc, Reaches, @eq_comm _ j]

theorem lt_size_of_mem_pastOn (hj : j ∈ h.pastOn parents) : j < h.size := by
  obtain ⟨p, -, hp, hreach⟩ := mem_pastOn.mp hj
  exact hreach.lt_size hp

/-- A commit is made on some parents; it is named by the size the history had. -/
def add (h : History α) (parents : List Nat) (tree : α) : History α where
  size := h.size + 1
  past := Function.update h.past h.size (h.pastOn parents)
  tree := Function.update h.tree h.size tree
  past_lt i j hj := by
    by_cases hi : i = h.size
    · rw [hi, Function.update_self] at hj
      exact hi ▸ lt_size_of_mem_pastOn hj
    · rw [Function.update_of_ne hi] at hj
      exact h.past_lt i j hj
  past_trans i j hj := by
    by_cases hi : i = h.size
    · rw [hi, Function.update_self] at hj ⊢
      rw [Function.update_of_ne (lt_size_of_mem_pastOn hj).ne]
      obtain ⟨p, hp, hlt, hreach⟩ := mem_pastOn.mp hj
      exact fun k hk => mem_pastOn.mpr ⟨p, hp, hlt, hreach.trans (.inr hk)⟩
    · rw [Function.update_of_ne hi] at hj ⊢
      have hne : j ≠ h.size := by
        intro heq
        have hlt := h.past_lt i j hj
        rw [h.past_nil i (by omega)] at hj
        exact absurd hj List.not_mem_nil
      rw [Function.update_of_ne hne]
      exact h.past_trans i j hj
  past_nil i hi := by
    rw [Function.update_of_ne (by omega)]
    exact h.past_nil i (by omega)

theorem reaches_add {tree : α} {p : Nat} (hp : p ∈ parents)
    (hlt : p < h.size) : (h.add parents tree).Reaches h.size p := by
  refine .inr ?_
  show p ∈ Function.update h.past h.size (h.pastOn parents) h.size
  rw [Function.update_self]
  exact mem_pastOn.mpr ⟨p, hp, hlt, .refl h p⟩

/-- One history is the beginning of another. -/
def Extends (h h' : History α) : Prop :=
  h.size ≤ h'.size ∧ ∀ i < h.size, h'.past i = h.past i ∧ h'.tree i = h.tree i

theorem Extends.refl (h : History α) : h.Extends h := ⟨le_rfl, fun _ _ => ⟨rfl, rfl⟩⟩

theorem Extends.trans (hext : h.Extends h') (hext' : h'.Extends h'') : h.Extends h'' := by
  refine ⟨hext.1.trans hext'.1, fun i hi => ?_⟩
  obtain ⟨hpast, htree⟩ := hext'.2 i (hi.trans_le hext.1)
  exact ⟨hpast.trans (hext.2 i hi).1, htree.trans (hext.2 i hi).2⟩

theorem extends_add (h : History α) (parents : List Nat) (tree : α) :
    h.Extends (h.add parents tree) :=
  ⟨Nat.le_succ _, fun _ hi => ⟨Function.update_of_ne hi.ne .., Function.update_of_ne hi.ne ..⟩⟩

theorem Extends.reaches_iff (hext : h.Extends h') (hi : i < h.size) :
    h'.Reaches i j ↔ h.Reaches i j := by
  rw [Reaches, Reaches, (hext.2 i hi).1]

/-! ## What commits have -/

/-- A commit has what those it descends from have. -/
def Grows (h : History α) (has : α → Set β) : Prop :=
  ∀ i j, h.Reaches i j → has (h.tree j) ⊆ has (h.tree i)

theorem Grows.add {has : α → Set β} (hg : h.Grows has) {tree : α}
    (htree : ∀ p ∈ parents, p < h.size → has (h.tree p) ⊆ has tree) :
    (h.add parents tree).Grows has := by
  have hext := h.extends_add parents tree
  intro i j hij
  rcases hij with rfl | hj
  · exact subset_rfl
  have hold : i < (h.add parents tree).size := by
    by_contra hi
    rw [(h.add parents tree).past_nil i (not_lt.mp hi)] at hj
    exact absurd hj List.not_mem_nil
  rcases Nat.lt_succ_iff_lt_or_eq.mp hold with hi | rfl
  · -- an old commit descends from what it did
    have hreach : h.Reaches i j := (hext.reaches_iff hi).mp (.inr hj)
    rw [(hext.2 i hi).2, (hext.2 j (hreach.lt_size hi)).2]
    exact hg i j hreach
  · have hmem : j ∈ Function.update h.past h.size (h.pastOn parents) h.size := hj
    rw [Function.update_self] at hmem
    obtain ⟨p, hp, hlt, hreach⟩ := mem_pastOn.mp hmem
    rw [(hext.2 j (hreach.lt_size hlt)).2]
    show _ ⊆ has (Function.update h.tree h.size tree h.size)
    rw [Function.update_self]
    exact (hg p j hreach).trans (htree p hp hlt)

end History
