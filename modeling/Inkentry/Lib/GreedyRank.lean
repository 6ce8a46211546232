/-
  Inkentry.Lib.GreedyRank

  Ranking the members of a list one after another: each pick has the highest
  score among what is left, the lowest member winning a tie, and a score may
  look at what was picked before.

  There is one such ranking (`Greedy.eq_of_perm`), so two scores rank alike
  exactly when the ranking by the one is a ranking by the other
  (`greedy_iff_of_greedy`), which is asked pick by pick (`EachPick.congr`).
-/

import Mathlib.Data.List.MinMax
import Mathlib.Data.List.Sort

namespace GreedyRank

variable {ι : Type*}

/-- Every member of a ranking is as `P` says, after the ones picked before it and before
    the ones picked after it. -/
def EachPick (P : List ι → ι → List ι → Prop) (picked : List ι) : List ι → Prop
  | [] => True
  | a :: rest => P picked a rest ∧ EachPick P (picked ++ [a]) rest

instance decidableEachPick {P : List ι → ι → List ι → Prop}
    [∀ picked a rest, Decidable (P picked a rest)] :
    ∀ picked order, Decidable (EachPick P picked order)
  | _, [] => .isTrue trivial
  | picked, a :: rest =>
    have := decidableEachPick (P := P) (picked ++ [a]) rest
    inferInstanceAs (Decidable (_ ∧ _))

/-- Where `P` holds of every pick, two more properties agree when they agree pick by pick. -/
theorem EachPick.congr {P Q R : List ι → ι → List ι → Prop}
    (hpick : ∀ picked a rest, P picked a rest → (Q picked a rest ↔ R picked a rest))
    {picked order : List ι} (h : EachPick P picked order) :
    EachPick Q picked order ↔ EachPick R picked order := by
  induction order generalizing picked with
  | nil => exact Iff.rfl
  | cons a rest ih => exact and_congr (hpick picked a rest h.1) (ih h.2)

variable {K : Type*} [LinearOrder ι] [LinearOrder K]

/-- `a` goes before `b`. -/
def Beats (score : ι → K) (a b : ι) : Prop := score b < score a ∨ score b = score a ∧ a < b

instance (score : ι → K) (a b : ι) : Decidable (Beats score a b) :=
  inferInstanceAs (Decidable (_ ∨ _))

theorem Beats.asymm {score : ι → K} {a b : ι} (h : Beats score a b) : ¬ Beats score b a := by
  rintro (hlt | ⟨heq, hlt⟩)
  · rcases h with h | ⟨h, -⟩
    · exact lt_asymm h hlt
    · exact (h ▸ hlt).false
  · rcases h with h | ⟨-, h⟩
    · exact (heq ▸ h).false
    · exact lt_asymm h hlt

theorem Beats.of_le {score : ι → K} {a b : ι} (hle : score b ≤ score a) (hlt : a < b) :
    Beats score a b := hle.lt_or_eq.imp_right fun heq => ⟨heq, hlt⟩

variable (score : List ι → ι → K)

/-- After the `picked` ones, every member beats all that follow it. -/
def Greedy : List ι → List ι → Prop :=
  EachPick fun picked a rest => ∀ b ∈ rest, Beats (score picked) a b

instance (picked order : List ι) : Decidable (Greedy score picked order) :=
  decidableEachPick picked order

/-- The ranking of what remains, at most as long as `fuel`. -/
def rankFrom : (fuel : ℕ) → (picked remaining : List ι) → List ι
  | 0, _, _ => []
  | fuel + 1, picked, remaining =>
    match remaining.argmax (score picked) with
    | none => []
    | some a => a :: rankFrom fuel (picked ++ [a]) (remaining.erase a)

/-! ## The ranking exists -/

/-- The first of the highest beats the others, in a list in ascending order. -/
theorem beats_of_mem_argmax {score : ι → K} {remaining : List ι} (hsorted : remaining.Pairwise (· < ·))
    {a b : ι} (ha : a ∈ remaining.argmax score) (hb : b ∈ remaining.erase a) : Beats score a b := by
  obtain ⟨hmem, hle, hfirst⟩ := List.mem_argmax_iff.mp ha
  have hnodup : remaining.Nodup := hsorted.imp fun h => h.ne
  obtain ⟨hne, hb⟩ := (hnodup.mem_erase_iff).mp hb
  rcases (hle b hb).lt_or_eq with hlt | heq
  · exact .inl hlt
  · refine .inr ⟨heq, ?_⟩
    have hidx : remaining.idxOf a < remaining.idxOf b :=
      lt_of_le_of_ne (hfirst b hb heq.ge) fun h => hne ((List.idxOf_inj hmem).mp h).symm
    have hget := List.pairwise_iff_getElem.mp hsorted _ _ (List.idxOf_lt_length_of_mem hmem)
      (List.idxOf_lt_length_of_mem hb) hidx
    rwa [List.getElem_idxOf, List.getElem_idxOf] at hget

theorem rankFrom_spec {fuel : ℕ} {remaining : List ι} (hsorted : remaining.Pairwise (· < ·))
    (hfuel : remaining.length ≤ fuel) (picked : List ι) :
    (rankFrom score fuel picked remaining).Perm remaining
      ∧ Greedy score picked (rankFrom score fuel picked remaining) := by
  induction fuel generalizing picked remaining with
  | zero =>
    rw [List.length_eq_zero_iff.mp (Nat.le_zero.mp hfuel)]
    exact ⟨.refl _, trivial⟩
  | succ fuel ih =>
    rw [rankFrom]
    cases hbest : remaining.argmax (score picked) with
    | none =>
      rw [List.argmax_eq_none.mp hbest]
      exact ⟨.refl _, trivial⟩
    | some a =>
      have hmem : a ∈ remaining := List.argmax_mem hbest
      have hlen : (remaining.erase a).length ≤ fuel := by
        rw [List.length_erase_of_mem hmem]
        omega
      obtain ⟨hperm, hgreedy⟩ :=
        ih (hsorted.sublist (List.erase_sublist)) hlen (picked ++ [a])
      refine ⟨(hperm.cons a).trans (List.perm_cons_erase hmem).symm, fun b hb => ?_, hgreedy⟩
      exact beats_of_mem_argmax hsorted hbest (hperm.mem_iff.mp hb)

/-! ## And there is one -/

variable {score}
variable {picked order order' : List ι}

theorem Greedy.eq_of_perm (h : Greedy score picked order) (h' : Greedy score picked order')
    (hperm : order.Perm order') : order = order' := by
  induction order generalizing picked order' with
  | nil => exact (List.nil_perm.mp hperm).symm
  | cons a rest ih =>
    cases order' with
    | nil => exact absurd hperm.length_eq (by simp)
    | cons b rest' =>
      by_cases heq : a = b
      · subst heq
        rw [ih h.2 h'.2 (List.perm_cons a |>.mp hperm)]
      · have hb : b ∈ rest := (List.mem_cons.mp (hperm.mem_iff.mpr List.mem_cons_self)).resolve_left
          (Ne.symm heq)
        have ha : a ∈ rest' := (List.mem_cons.mp (hperm.mem_iff.mp List.mem_cons_self)).resolve_left heq
        exact absurd (h'.1 a ha) (h.1 b hb).asymm

/-- A ranking by one score is one by another exactly when it is the other's ranking of
    the same members. -/
theorem greedy_iff_of_greedy {score' : List ι → ι → K} (h : Greedy score picked order)
    (h' : Greedy score' picked order') (hperm : order.Perm order') :
    Greedy score' picked order ↔ Greedy score picked order' := by
  constructor
  · intro hgreedy
    rwa [← hgreedy.eq_of_perm h' hperm]
  · intro hgreedy
    rwa [h.eq_of_perm hgreedy hperm]

end GreedyRank
