/-
  Inkentry.Lib.Lifetimes

  A journal of keys that come and go.  A key is alive once it was born and is
  not gone since (`Alive`); a journal in which no key is born while it is alive
  has one life of a key at a time (`OneAtATime`).

  Both are kept up event by event, at the end of the journal.
-/

import Mathlib.Data.List.Induction
import Mathlib.Data.List.Nodup

namespace Lifetimes

variable {κ : Type*}

inductive Event (κ : Type*) where
  | born (x : κ)
  | gone (x : κ)
  deriving DecidableEq

/-- The key was born and is not gone since. -/
def Alive (log : List (Event κ)) (x : κ) : Prop :=
  ∃ before after, log = before ++ .born x :: after ∧ .gone x ∉ after

/-- Between two births of a key it is gone. -/
def OneAtATime (log : List (Event κ)) : Prop :=
  ∀ x before between after, log = before ++ .born x :: (between ++ .born x :: after) →
    .gone x ∈ between

theorem oneAtATime_nil : OneAtATime ([] : List (Event κ)) := by
  intro x before between after h
  exact absurd h (by simp)

theorem not_alive_nil (x : κ) : ¬ Alive ([] : List (Event κ)) x := by
  rintro ⟨before, after, h, -⟩
  exact absurd h (by simp)

/-! ## The last event -/

variable {log : List (Event κ)}
variable {e : Event κ}

/-- A journal that ends in an event either ends in the birth that is looked for, or had
    it before. -/
theorem append_singleton_eq {log before after : List (Event κ)} {x : κ}
    (h : log ++ [e] = before ++ .born x :: after) :
    (after = [] ∧ before = log ∧ e = .born x)
      ∨ ∃ rest, after = rest ++ [e] ∧ log = before ++ .born x :: rest := by
  rcases List.eq_nil_or_concat after with rfl | ⟨rest, e', rfl⟩
  · obtain ⟨hlog, he⟩ := List.append_inj' h rfl
    exact .inl ⟨rfl, hlog.symm, List.singleton_inj.mp he⟩
  · have hsplit : log ++ [e] = (before ++ .born x :: rest) ++ [e'] := by simpa using h
    obtain ⟨hlog, he⟩ := List.append_inj' hsplit rfl
    exact .inr ⟨rest, by rw [List.concat_eq_append, List.singleton_inj.mp he], hlog⟩

theorem alive_append_singleton_iff {x : κ} :
    Alive (log ++ [e]) x ↔ e = .born x ∨ Alive log x ∧ e ≠ .gone x := by
  constructor
  · rintro ⟨before, after, hlog, hgone⟩
    rcases append_singleton_eq hlog with ⟨-, -, he⟩ | ⟨rest, rfl, rfl⟩
    · exact .inl he
    · refine .inr ⟨⟨before, rest, rfl, fun h => hgone (List.mem_append_left _ h)⟩, ?_⟩
      rintro rfl
      exact hgone (List.mem_append_right _ List.mem_cons_self)
  · rintro (rfl | ⟨⟨before, after, rfl, hgone⟩, he⟩)
    · exact ⟨log, [], rfl, List.not_mem_nil⟩
    · refine ⟨before, after ++ [e], by simp, fun h => ?_⟩
      rcases List.mem_append.mp h with hafter | hlast
      · exact hgone hafter
      · exact he (List.mem_singleton.mp hlast).symm

theorem OneAtATime.append_born (h : OneAtATime log) {x : κ}
    (hx : ¬ Alive log x) : OneAtATime (log ++ [.born x]) := by
  intro y before between after hlog
  rcases append_singleton_eq (e := .born x) hlog with ⟨hnil, -, -⟩ | ⟨rest, hrest, hold⟩
  · exact absurd hnil (by simp)
  · rcases append_singleton_eq hrest.symm with ⟨-, rfl, hy⟩ | ⟨rest', rfl, rfl⟩
    · obtain rfl := Event.born.inj hy
      by_contra hgone
      exact hx ⟨before, between, hold, hgone⟩
    · exact h y before between rest' hold

theorem OneAtATime.append_gone (h : OneAtATime log) (x : κ) : OneAtATime (log ++ [.gone x]) := by
  intro y before between after hlog
  rcases append_singleton_eq hlog with ⟨-, -, hy⟩ | ⟨rest, hrest, hold⟩
  · exact absurd hy (by simp)
  · rcases append_singleton_eq hrest.symm with ⟨-, -, hy⟩ | ⟨rest', rfl, rfl⟩
    · exact absurd hy (by simp)
    · exact h y before between rest' hold

theorem OneAtATime.of_append (h : OneAtATime (log ++ [e])) : OneAtATime log := by
  rintro x before between after rfl
  exact h x before between (after ++ [e]) (by simp)

theorem OneAtATime.nodup (h : OneAtATime log) (hgone : ∀ x, .gone x ∉ log) : log.Nodup := by
  induction log using List.reverseRecOn with
  | nil => exact List.nodup_nil
  | append_singleton log e ih =>
    have hold := ih h.of_append fun x hx => hgone x (List.mem_append_left _ hx)
    refine hold.append (List.nodup_singleton e) (List.disjoint_singleton.mpr fun hmem => ?_)
    cases e with
    | born x =>
      obtain ⟨before, between, rfl⟩ := List.append_of_mem hmem
      have hbetween := h x before between [] (by simp)
      exact hgone x (by simp [hbetween])
    | gone x => exact hgone x (by simp)

end Lifetimes
