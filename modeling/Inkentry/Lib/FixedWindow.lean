/-
  Inkentry.Lib.FixedWindow

  Fixed windows over a log of timed events, some of which count.  An event that
  falls outside the window open before it opens the next one, so windows do not
  overlap, and what counts is counted window by window.

  `counted_le` is the rule of a quota: events that count only while their window
  has counted fewer than `quota` leave no window with more than `quota`.
-/

import Mathlib.Data.List.Infix

namespace FixedWindow

variable (width : ℕ)

/-! ## Windows -/

/-- Where the window of an event starts, with `cur` the start of the window before it. -/
def opened (cur : Option ℕ) (now : ℕ) : ℕ :=
  match cur with
  | none => now
  | some start => if now - start < width then start else now

/-- Where the last window starts. -/
def start (log : List (ℕ × Bool)) : Option ℕ :=
  log.foldl (fun cur e => some (opened width cur e.1)) none

/-- How many events of the window from `s` on count. -/
def counted (s : ℕ) (log : List (ℕ × Bool)) : ℕ :=
  log.countP fun e => s ≤ e.1 ∧ e.1 < s + width ∧ e.2 = true

def InOrder (log : List (ℕ × Bool)) : Prop := log.Pairwise fun e e' => e.1 ≤ e'.1

@[simp] theorem start_nil : start width [] = none := rfl

@[simp] theorem start_append (log : List (ℕ × Bool)) (e : ℕ × Bool) :
    start width (log ++ [e]) = some (opened width (start width log) e.1) := by
  rw [start, List.foldl_append]
  rfl

theorem counted_append (s : ℕ) (log : List (ℕ × Bool)) (e : ℕ × Bool) :
    counted width s (log ++ [e])
      = counted width s log + if s ≤ e.1 ∧ e.1 < s + width ∧ e.2 = true then 1 else 0 := by
  rw [counted, List.countP_append, List.countP_singleton]
  simp only [counted, decide_eq_true_eq]

section

variable {width} {log : List (ℕ × Bool)} {cur : ℕ}

theorem start_eq_none_iff : start width log = none ↔ log = [] := by
  rcases List.eq_nil_or_concat log with rfl | ⟨front, e, rfl⟩
  · simp
  · simp [List.concat_eq_append]

theorem opened_le {cur : Option ℕ} {now : ℕ} (h : ∀ s ∈ cur, s ≤ now) : opened width cur now ≤ now := by
  rw [opened.eq_def]
  split
  · exact le_rfl
  · split
    · exact h _ rfl
    · exact le_rfl

theorem lt_opened_add (hwidth : 0 < width) (cur : Option ℕ) (now : ℕ) :
    now < opened width cur now + width := by
  rw [opened.eq_def]
  split
  · omega
  · split
    · omega
    · omega

theorem InOrder.of_append {log' : List (ℕ × Bool)} (h : InOrder (log ++ log')) : InOrder log :=
  (List.pairwise_append.mp h).1

theorem InOrder.le_last {e e' : ℕ × Bool} (h : InOrder (log ++ [e])) (hmem : e' ∈ log) : e'.1 ≤ e.1 :=
  (List.pairwise_append.mp h).2.2 e' hmem e List.mem_cons_self

theorem exists_mem_of_start (h : start width log = some cur) : ∃ e ∈ log, e.1 = cur := by
  induction log using List.reverseRecOn generalizing cur with
  | nil => cases h
  | append_singleton log e ih =>
    rw [start_append, Option.some_inj] at h
    rw [opened.eq_def] at h
    split at h
    · exact ⟨e, by simp, h⟩
    · next s hs =>
      split at h
      · obtain ⟨e', hmem, heq⟩ := ih hs
        exact ⟨e', List.mem_append_left _ hmem, heq.trans h⟩
      · exact ⟨e, by simp, h⟩

theorem start_le (h : InOrder (log ++ [e])) : ∀ s ∈ start width log, s ≤ e.1 := by
  intro s hs
  obtain ⟨e', hmem, rfl⟩ := exists_mem_of_start hs
  exact h.le_last hmem

/-- A window that was open earlier is the last one, or over before the last one starts. -/
theorem start_of_prefix {front : List (ℕ × Bool)} {s : ℕ} (hfront : front <+: log)
    (hs : start width front = some s) (h : start width log = some cur) (horder : InOrder log) :
    s = cur ∨ s + width ≤ cur := by
  induction log using List.reverseRecOn generalizing cur with
  | nil => cases h
  | append_singleton log e ih =>
    rcases List.prefix_concat_iff.mp hfront with rfl | hfront
    · rw [hs, Option.some_inj] at h
      exact .inl h
    · cases hcur : start width log with
      | none =>
        rw [start_eq_none_iff.mp hcur] at hfront
        rw [List.prefix_nil.mp hfront] at hs
        cases hs
      | some cur' =>
        rw [start_append, hcur, Option.some_inj, opened] at h
        have hold := ih hfront hcur horder.of_append
        have hle : cur' ≤ e.1 := start_le horder _ hcur
        split at h
        · next hlive =>
          rw [← h]
          exact hold
        -- the old window is over, so the new one begins at least a width past it
        · next hdead =>
          refine .inr ?_
          rcases hold with rfl | hold
          · omega
          · omega

theorem lt_start_add (hwidth : 0 < width) (horder : InOrder log) (h : start width log = some cur)
    {e : ℕ × Bool} (hmem : e ∈ log) : e.1 < cur + width := by
  rcases List.eq_nil_or_concat log with rfl | ⟨front, last, rfl⟩
  · cases hmem
  · rw [List.concat_eq_append] at hmem horder h
    rw [start_append, Option.some_inj] at h
    have hlast := lt_opened_add hwidth (start width front) last.1
    rw [h] at hlast
    rcases List.mem_append.mp hmem with hmem | hmem
    · exact Nat.lt_of_le_of_lt (horder.le_last hmem) hlast
    · rw [List.mem_singleton.mp hmem]
      exact hlast

end

/-! ## Counting -/

section

variable {width} {log : List (ℕ × Bool)}

theorem counted_of_fresh {e : ℕ × Bool} (horder : InOrder (log ++ [e]))
    (hfresh : ∀ cur ∈ start width log, width ≤ e.1 - cur) : counted width e.1 log = 0 := by
  refine List.countP_eq_zero.mpr fun e' hmem hin => ?_
  obtain ⟨hge, hlt, -⟩ := of_decide_eq_true hin
  cases hcur : start width log with
  | none =>
    rw [start_eq_none_iff.mp hcur] at hmem
    cases hmem
  | some cur =>
    have hdead := hfresh cur hcur
    have hbefore := lt_start_add (by omega) horder.of_append hcur hmem
    omega

/-- Events that count only below the quota of their window keep every window to it. -/
theorem counted_le {quota : ℕ} (horder : InOrder log)
    (hquota : ∀ before e, before ++ [e] <+: log → e.2 = true →
      counted width (opened width (start width before) e.1) before < quota)
    {front : List (ℕ × Bool)} {s : ℕ} (hfront : front <+: log) (hs : start width front = some s) :
    counted width s log ≤ quota := by
  induction log using List.reverseRecOn generalizing front with
  | nil =>
    rw [List.prefix_nil.mp hfront] at hs
    cases hs
  | append_singleton log e ih =>
    have hbefore := fun before e' (h : before ++ [e'] <+: log) =>
      hquota before e' (h.trans (List.prefix_append _ _))
    have hlog : ∀ {front'}, front' <+: log → start width front' = some s →
        counted width s log ≤ quota := ih horder.of_append hbefore
    rw [counted_append]
    split
    case isTrue hin =>
      -- the event is of the window from `s`, so it counts below the quota
      have hopened : s = opened width (start width log) e.1 := by
        have hle := @opened_le width (start width log) e.1 (start_le horder)
        rcases start_of_prefix hfront hs (start_append width log e) horder with heq | hover
        · exact heq
        · omega
      have hbelow := hquota log e List.prefix_rfl hin.2.2
      rw [← hopened] at hbelow
      omega
    case isFalse =>
      rw [Nat.add_zero]
      rcases List.prefix_concat_iff.mp hfront with rfl | hfront
      · rw [start_append, Option.some_inj] at hs
        cases hcur : start width log with
        | none => simp [start_eq_none_iff.mp hcur, counted]
        | some cur =>
          rw [hcur, opened] at hs
          split at hs
          · exact hlog List.prefix_rfl (hs ▸ hcur)
          · next hdead =>
            rw [← hs, counted_of_fresh horder]
            · exact Nat.zero_le quota
            · intro cur' hcur'
              rw [hcur, Option.mem_some_iff] at hcur'
              omega
      · exact hlog hfront hs

end

end FixedWindow
