/-
  Inkentry.Index.Mmr

  The order in which the units of a chunk without a title are offered to its
  summary: each pick trades what a unit has in common with the chunk against
  what it has in common with the units picked before.

  The penalty is documented as the highest similarity with a picked unit.  The
  code takes the highest of those and zero, so a unit that is unlike every
  picked one is not rewarded for it.  `mmrLaw_iff` says when that picks another
  unit.
-/

import Mathlib.Algebra.Order.Field.Rat
import Mathlib.Data.Fin.Basic
import Mathlib.Data.List.FinRange
import Mathlib.Order.WithBot
import Mathlib.Tactic.Linarith
import Inkentry.Lib.GreedyRank

namespace Inkentry
namespace Index

open GreedyRank

variable {V : Type*} (cosine : V → V → ℚ) (units : List V) (centroid : V) (lambda : ℚ)

/-! ## The code -/

def relevance (idx : Fin units.length) : ℚ := cosine (units.get idx) centroid

def maxSimToSelected (selected : List (Fin units.length)) (idx : Fin units.length) : ℚ :=
  (selected.map fun s => cosine (units.get idx) (units.get s)).foldl max 0

def marginalScore (selected : List (Fin units.length)) (idx : Fin units.length) : ℚ :=
  lambda * relevance cosine units centroid idx
    - (1 - lambda) * maxSimToSelected cosine units selected idx

/-- The scan of what remains: the position of the first highest score. -/
def bestPos {ι : Type*} (score : ι → ℚ) (remaining : List ι) : ℕ × WithBot ℚ :=
  remaining.zipIdx.foldl (fun best p =>
    if best.2 < (score p.1 : WithBot ℚ) then (p.2, (score p.1 : WithBot ℚ)) else best) (0, ⊥)

/-- The loop; every turn takes one of the remaining units. -/
def selectLoop : (fuel : ℕ) → (selected remaining : List (Fin units.length)) →
    List (Fin units.length)
  | 0, selected, _ => selected
  | fuel + 1, selected, remaining =>
    if remaining = [] then selected
    else
      let pos := (bestPos (marginalScore cosine units centroid lambda selected) remaining).1
      selectLoop fuel (selected ++ remaining[pos]?.toList) (remaining.eraseIdx pos)

def mmrRank : List (Fin units.length) :=
  selectLoop cosine units centroid lambda units.length [] (List.finRange units.length)

/-! ## What is documented -/

/-- The highest similarity with a picked unit, none before the first pick. -/
def penalty (picked : List (Fin units.length)) (idx : Fin units.length) : ℚ :=
  (picked.map fun s => cosine (units.get idx) (units.get s)).max?.getD 0

def documentedScore (picked : List (Fin units.length)) (idx : Fin units.length) : ℚ :=
  lambda * relevance cosine units centroid idx - (1 - lambda) * penalty cosine units picked idx

/-- Every unit is ranked once, and each pick has the highest documented score of the units
    left, the lowest index winning a tie. -/
structure MmrLaw : Prop where
  perm : (mmrRank cosine units centroid lambda).Perm (List.finRange units.length)
  greedy : Greedy (documentedScore cosine units centroid lambda) []
    (mmrRank cosine units centroid lambda)

/-- The ranking as documented. -/
def documentedRank : List (Fin units.length) :=
  rankFrom (documentedScore cosine units centroid lambda) units.length []
    (List.finRange units.length)

/-- A pick unlike every unit picked before it also leads the units left when no unit is
    rewarded for being unlike them. -/
def KeepsLead (picked : List (Fin units.length)) (idx : Fin units.length)
    (rest : List (Fin units.length)) : Prop :=
  penalty cosine units picked idx < 0 → ∀ other ∈ rest,
    Beats (fun i => lambda * relevance cosine units centroid i
      - (1 - lambda) * max 0 (penalty cosine units picked i)) idx other

instance (picked rest : List (Fin units.length)) (idx : Fin units.length) :
    Decidable (KeepsLead cosine units centroid lambda picked idx rest) :=
  inferInstanceAs (Decidable (_ → _))

/-! ## The scan -/

theorem bestPos_spec {ι : Type*} (score : ι → ℚ) {remaining : List ι} (hne : remaining ≠ []) :
    ∃ before a after, remaining = before ++ a :: after
      ∧ bestPos score remaining = (before.length, (score a : WithBot ℚ))
      ∧ (∀ b ∈ before, score b < score a) ∧ ∀ b ∈ after, score b ≤ score a := by
  -- from the right, as the fold does; a later item wins only with a greater score
  induction remaining using List.reverseRecOn with
  | nil => exact absurd rfl hne
  | append_singleton l x ih =>
    have hstep : bestPos score (l ++ [x])
        = if (bestPos score l).2 < (score x : WithBot ℚ) then (l.length, (score x : WithBot ℚ))
          else bestPos score l := by
      rw [bestPos, List.zipIdx_append, List.foldl_append, ← bestPos]
      simp
    by_cases hl : l = []
    · subst hl
      exact ⟨[], x, [], rfl, by simp [bestPos, WithBot.bot_lt_coe], by simp, by simp⟩
    · obtain ⟨before, a, after, hsplit, hbest, hbefore, hafter⟩ := ih hl
      rw [hstep, hbest]
      by_cases hlt : score a < score x
      · refine ⟨l, x, [], rfl, if_pos (WithBot.coe_lt_coe.mpr hlt), fun b hb => ?_, by simp⟩
        rw [hsplit] at hb
        rcases List.mem_append.mp hb with hb | hb
        · exact (hbefore b hb).trans hlt
        · rcases List.mem_cons.mp hb with rfl | hb
          · exact hlt
          · exact (hafter b hb).trans_lt hlt
      · refine ⟨before, a, after ++ [x], by simp [hsplit],
          if_neg (by rwa [WithBot.coe_lt_coe]), hbefore, fun b hb => ?_⟩
        rcases List.mem_append.mp hb with hb | hb
        · exact hafter b hb
        · rw [List.mem_singleton.mp hb]
          exact not_lt.mp hlt

/-! ## The loop -/

theorem selectLoop_spec {fuel : ℕ} {remaining : List (Fin units.length)}
    (hsorted : remaining.Pairwise (· < ·)) (hfuel : remaining.length ≤ fuel)
    (selected : List (Fin units.length)) :
    ∃ order, selectLoop cosine units centroid lambda fuel selected remaining = selected ++ order
      ∧ order.Perm remaining
      ∧ Greedy (marginalScore cosine units centroid lambda) selected order := by
  induction fuel generalizing selected remaining with
  | zero =>
    rw [List.length_eq_zero_iff.mp (Nat.le_zero.mp hfuel)]
    exact ⟨[], (List.append_nil _).symm, .refl _, trivial⟩
  | succ fuel ih =>
    rw [selectLoop]
    split
    case isTrue hnil =>
      rw [hnil]
      exact ⟨[], (List.append_nil _).symm, .refl _, trivial⟩
    case isFalse hne =>
      obtain ⟨before, a, after, hsplit, hbest, hbefore, hafter⟩ :=
        bestPos_spec (marginalScore cosine units centroid lambda selected) hne
      have hpick : remaining[before.length]?.toList = [a] := by
        rw [hsplit, List.getElem?_append_right (Nat.le_refl _)]
        simp
      have hrest : remaining.eraseIdx before.length = before ++ after := by
        rw [hsplit, List.eraseIdx_append_of_length_le (Nat.le_refl _)]
        simp
      have hsub : (before ++ after).Sublist remaining := by
        rw [hsplit]
        exact (List.Sublist.refl before).append (List.sublist_cons_self a after)
      have hlen : (before ++ after).length ≤ fuel := by
        rw [hsplit] at hfuel
        simp only [List.length_append, List.length_cons] at hfuel ⊢
        omega
      obtain ⟨order, heq, hperm, hgreedy⟩ := ih (hsorted.sublist hsub) hlen (selected ++ [a])
      refine ⟨a :: order, ?_, ?_, fun b hb => ?_, hgreedy⟩
      · simp only [hbest, hpick, hrest, heq, List.append_assoc, List.singleton_append]
      · rw [hsplit]
        exact (hperm.cons a).trans List.perm_middle.symm
      · -- earlier units score less, later ones at most as much
        rcases List.mem_append.mp (hperm.mem_iff.mp hb) with hb | hb
        · exact .inl (hbefore b hb)
        · refine Beats.of_le (hafter b hb) ?_
          rw [hsplit] at hsorted
          exact (List.pairwise_cons.mp (List.pairwise_append.mp hsorted).2.1).1 b hb

theorem mmrRank_spec :
    (mmrRank cosine units centroid lambda).Perm (List.finRange units.length)
      ∧ Greedy (marginalScore cosine units centroid lambda) []
        (mmrRank cosine units centroid lambda) := by
  obtain ⟨order, heq, hperm, hgreedy⟩ := selectLoop_spec cosine units centroid lambda
    (List.pairwise_lt_finRange units.length) (List.length_finRange).le []
  rw [mmrRank, heq, List.nil_append]
  exact ⟨hperm, hgreedy⟩

/-! ## The penalty -/

variable {cosine units centroid lambda}

theorem maxSimToSelected_eq (picked : List (Fin units.length)) (idx : Fin units.length) :
    maxSimToSelected cosine units picked idx = max 0 (penalty cosine units picked idx) := by
  rw [maxSimToSelected, penalty]
  cases picked.map fun s => cosine (units.get idx) (units.get s) with
  | nil => exact (max_self 0).symm
  | cons sim sims => rw [List.foldl_cons, List.max?_cons', Option.getD_some, List.foldl_assoc]

/-- Where the documented ranking picks a unit, the code's score ranks it first too exactly
    when it keeps its lead. -/
theorem beats_marginalScore_iff (h1 : lambda ≤ 1) {picked : List (Fin units.length)}
    {idx : Fin units.length} {rest : List (Fin units.length)}
    (hdoc : ∀ other ∈ rest, Beats (documentedScore cosine units centroid lambda picked) idx other) :
    (∀ other ∈ rest, Beats (marginalScore cosine units centroid lambda picked) idx other)
      ↔ KeepsLead cosine units centroid lambda picked idx rest := by
  have hscore : marginalScore cosine units centroid lambda picked
      = fun i => lambda * relevance cosine units centroid i
        - (1 - lambda) * max 0 (penalty cosine units picked i) :=
    funext fun i => by rw [marginalScore, maxSimToSelected_eq]
  rw [hscore, KeepsLead]
  refine ⟨fun h _ => h, fun h => ?_⟩
  by_cases hneg : penalty cosine units picked idx < 0
  · exact h hneg
  · -- its own penalty is as documented, and no other unit's is lower than documented
    intro other hother
    have hown : max 0 (penalty cosine units picked idx) = penalty cosine units picked idx :=
      max_eq_right (not_lt.mp hneg)
    have hother' : (1 - lambda) * penalty cosine units picked other
        ≤ (1 - lambda) * max 0 (penalty cosine units picked other) :=
      mul_le_mul_of_nonneg_left (le_max_right _ _) (sub_nonneg.mpr h1)
    rcases hdoc other hother with hlt | ⟨heq, hidx⟩
    · refine .inl ?_
      simp only [documentedScore] at hlt
      simp only [hown]
      linarith
    · refine Beats.of_le ?_ hidx
      simp only [documentedScore] at heq
      simp only [hown]
      linarith

variable (cosine units centroid lambda)

/-- The ranking is as documented exactly when, along the documented one, each pick unlike
    all before it leads without the reward for that. -/
theorem mmrLaw_iff (h1 : lambda ≤ 1) :
    MmrLaw cosine units centroid lambda
      ↔ EachPick (KeepsLead cosine units centroid lambda) []
          (documentedRank cosine units centroid lambda) := by
  obtain ⟨hperm, hgreedy⟩ := mmrRank_spec cosine units centroid lambda
  obtain ⟨hdocPerm, hdoc⟩ := rankFrom_spec (documentedScore cosine units centroid lambda)
    (List.pairwise_lt_finRange units.length) (List.length_finRange).le []
  calc MmrLaw cosine units centroid lambda
      ↔ Greedy (documentedScore cosine units centroid lambda) []
          (mmrRank cosine units centroid lambda) := ⟨fun h => h.greedy, fun h => ⟨hperm, h⟩⟩
    _ ↔ Greedy (marginalScore cosine units centroid lambda) []
          (documentedRank cosine units centroid lambda) :=
      greedy_iff_of_greedy hgreedy hdoc (hperm.trans hdocPerm.symm)
    _ ↔ _ := EachPick.congr (fun _ _ _ => beats_marginalScore_iff h1) hdoc

/-! ### Units in the plane -/

/-- The cosine of two vectors of length one. -/
def planeCosine (u v : ℚ × ℚ) : ℚ := u.1 * v.1 + u.2 * v.2

/-- Two units alike and one across. -/
theorem mmrLaw_of_across :
    (1 / 2 : ℚ) ≤ 1 ∧ MmrLaw planeCosine [(1, 0), (1, 0), (0, 1)] (4 / 5, 3 / 5) (1 / 2) :=
  ⟨by decide +kernel, (mmrLaw_iff _ _ _ _ (by decide +kernel)).mpr (by decide +kernel)⟩

/-- The last unit is the most unlike the first, and is picked last. -/
theorem not_mmrLaw_of_opposite :
    ¬ MmrLaw planeCosine [(4 / 5, 3 / 5), (-4 / 5, 3 / 5), (-15 / 17, 8 / 17)] (0, 1) (1 / 2) := by
  intro h
  exact absurd h.greedy (by decide +kernel)

end Index
end Inkentry
