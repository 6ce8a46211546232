/-
  Inkentry.Lib.Memo

  A function whose answers are remembered in a table: a key that was asked for
  once is answered from the table ever after.  A computation can fail; the
  default answer then stands in, and is remembered like any other.

  A table that remembers the function's own answers only is `Sound`.  It stays
  so as long as no computation fails whose answer is not the default anyway
  (`Answers`), and asking through a sound table is then asking the function
  (`ask_of_sound`), also for a search that stops early (`findUnique_of_sound`).
-/

import Mathlib.Data.List.Perm.Basic
import Mathlib.Logic.Function.Basic

namespace Memo

variable {κ ν : Type*}

/-- The answers remembered. -/
abbrev Table (κ ν : Type*) := κ → Option ν

def Table.empty : Table κ ν := fun _ => none

section Ask

variable (f : κ → ν) (default : ν) (fails : κ → Bool)

/-- What a computation comes to. -/
def computed (k : κ) : ν := if fails k then default else f k

/-- The answer for a key, from the table or else computed and remembered. -/
def ask [DecidableEq κ] (m : Table κ ν) (k : κ) : ν × Table κ ν :=
  match m k with
  | some v => (v, m)
  | none => (computed f default fails k,
      Function.update m k (some (computed f default fails k)))

/-- The table remembers the function's own answers. -/
def Sound (m : Table κ ν) : Prop := ∀ k, ∀ v ∈ m k, v = f k

/-- Where a computation that is still to be made fails, the default is right. -/
def Answers (m : Table κ ν) : Prop := ∀ k, m k = none → fails k = true → f k = default

/-- A table that can be asked. -/
def Ready (m : Table κ ν) : Prop := Sound f m ∧ Answers f default fails m

variable {f default fails}

theorem sound_empty : Sound f (Table.empty : Table κ ν) := by
  intro k v hv
  simp [Table.empty] at hv

theorem answers_of_no_failure (h : ∀ k, fails k = false) (m : Table κ ν) :
    Answers f default fails m := by
  intro k _ hk
  rw [h k] at hk
  exact absurd hk Bool.false_ne_true

theorem ask_of_sound [DecidableEq κ] {m : Table κ ν} (h : Ready f default fails m) (k : κ) :
    (ask f default fails m k).1 = f k ∧ Ready f default fails (ask f default fails m k).2 := by
  obtain ⟨hsound, hanswers⟩ := h
  rw [ask]
  cases hm : m k with
  | some v => exact ⟨hsound k v hm, hsound, hanswers⟩
  | none =>
    have hv : computed f default fails k = f k := by
      rw [computed]
      by_cases hk : fails k = true
      · rw [if_pos hk, hanswers k hm hk]
      · rw [if_neg hk]
    show computed f default fails k = f k
      ∧ Ready f default fails (Function.update m k (some (computed f default fails k)))
    rw [hv]
    refine ⟨rfl, ?_, ?_⟩
    · intro k' v hv'
      by_cases hkk : k' = k
      · subst hkk
        simpa using hv'.symm
      · rw [Function.update_of_ne hkk] at hv'
        exact hsound k' v hv'
    · intro k' hnone hfail
      by_cases hkk : k' = k
      · subst hkk
        simp at hnone
      · rw [Function.update_of_ne hkk] at hnone
        exact hanswers k' hnone hfail

end Ask

/-! ## The one key with an answer -/

variable [DecidableEq ν]

/-- The one key of a list with a given answer, if there is exactly one. -/
def unique (f : κ → ν) (w : ν) (l : List κ) : Option κ :=
  match l.filter fun k => f k = w with
  | [k] => some k
  | _ => none

theorem unique_eq_some {f : κ → ν} {w : ν} {l : List κ} {k : κ} (h : unique f w l = some k) :
    k ∈ l ∧ f k = w := by
  rw [unique] at h
  split at h
  · next k' hl =>
    have hmem : k' ∈ l.filter fun k => f k = w := by simp [hl]
    rw [Option.some.inj h] at hmem
    simpa using hmem
  · cases h

theorem unique_perm {f : κ → ν} {w : ν} {l l' : List κ} (h : l.Perm l') :
    unique f w l = unique f w l' := by
  have hperm := h.filter fun k => decide (f k = w)
  rw [unique, unique]
  cases hl : l.filter fun k => f k = w with
  | nil =>
    rw [hl] at hperm
    rw [List.nil_perm.mp hperm]
  | cons k l₁ =>
    rw [hl] at hperm
    cases l₁ with
    | nil => rw [List.singleton_perm.mp hperm]
    | cons k₂ l₁ =>
      -- as many keys on the other side
      cases hl' : l'.filter fun k => f k = w with
      | nil => rfl
      | cons k' l₂ =>
        cases l₂ with
        | nil =>
          rw [hl'] at hperm
          exact absurd hperm.length_eq (by simp)
        | cons k₂' l₂ => rfl

variable [DecidableEq κ]

/-- A search through the table that stops at the second hit. -/
def findUnique (f : κ → ν) (default : ν) (fails : κ → Bool) (w : ν) :
    Option κ → List κ → Table κ ν → Option κ × Table κ ν
  | found, [], m => (found, m)
  | found, k :: l, m =>
    if (ask f default fails m k).1 = w then
      match found with
      | some _ => (none, (ask f default fails m k).2)
      | none => findUnique f default fails w (some k) l (ask f default fails m k).2
    else findUnique f default fails w found l (ask f default fails m k).2

/-- What the search has left to say with one hit behind it. -/
theorem findUnique_found {f : κ → ν} {default : ν} {fails : κ → Bool} {w : ν} {l : List κ}
    {m : Table κ ν} (h : Ready f default fails m) (c : κ) :
    (findUnique f default fails w (some c) l m).1
        = (if l.filter (fun k => f k = w) = [] then some c else none)
      ∧ Ready f default fails (findUnique f default fails w (some c) l m).2 := by
  induction l generalizing m with
  | nil => exact ⟨rfl, h⟩
  | cons k l ih =>
    obtain ⟨hv, hnext⟩ := ask_of_sound h k
    rw [findUnique, hv]
    by_cases hk : f k = w
    · rw [if_pos hk]
      refine ⟨?_, hnext⟩
      simp [hk]
    · rw [if_neg hk, List.filter_cons_of_neg (by simpa using hk)]
      exact ih hnext

/-- Searching through a sound table finds the one key with the answer. -/
theorem findUnique_of_sound {f : κ → ν} {default : ν} {fails : κ → Bool} {w : ν} {l : List κ}
    {m : Table κ ν} (h : Ready f default fails m) :
    (findUnique f default fails w none l m).1 = unique f w l
      ∧ Ready f default fails (findUnique f default fails w none l m).2 := by
  induction l generalizing m with
  | nil => exact ⟨rfl, h⟩
  | cons k l ih =>
    obtain ⟨hv, hnext⟩ := ask_of_sound h k
    rw [findUnique, hv]
    by_cases hk : f k = w
    · rw [if_pos hk]
      obtain ⟨hfound, hready⟩ := @findUnique_found _ _ _ _ f default fails w l _ hnext k
      refine ⟨hfound.trans ?_, hready⟩
      rw [unique, List.filter_cons_of_pos (by simpa using hk)]
      cases l.filter fun k => f k = w with
      | nil => rfl
      | cons k' l' => rfl
    · have hunique : unique f w (k :: l) = unique f w l := by
        rw [unique, List.filter_cons_of_neg (by simpa using hk), unique]
      rw [if_neg hk, hunique]
      exact ih hnext

end Memo
