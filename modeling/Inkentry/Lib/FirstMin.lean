/-
  Inkentry.Lib.FirstMin

  The first element of a list with the smallest key, and the two ways a
  program reaches it: by value (`List.argmin`) and by index, taking it out of
  the vector with a swap-remove.

  Which of several key-minimal elements comes first depends on the order of
  the list; what they agree on does not (`argmin_map_congr`).
-/

import Mathlib.Data.List.MinMax
import Mathlib.Data.List.Perm.Basic

namespace FirstMin

variable {α β γ : Type*} [LinearOrder β]

/-! ## The minimum by value -/

variable {f : α → β}
variable {l : List α}
variable {a : α}

/-- A member of `l` whose key no member undercuts. -/
def IsKeyMin (f : α → β) (l : List α) (a : α) : Prop := a ∈ l ∧ ∀ b ∈ l, f a ≤ f b

theorem argmin_isKeyMin (h : l.argmin f = some a) : IsKeyMin f l a :=
  ⟨List.argmin_mem h, fun _ hb => List.le_of_mem_argmin hb h⟩

theorem exists_argmin_of_ne_nil (f : α → β) (h : l ≠ []) : ∃ a, l.argmin f = some a :=
  Option.ne_none_iff_exists'.mp fun hnone => h (List.argmin_eq_none.mp hnone)

theorem IsKeyMin.congr {l l' : List α} (h : ∀ x, x ∈ l ↔ x ∈ l')
    (ha : IsKeyMin f l a) : IsKeyMin f l' a :=
  ⟨(h a).mp ha.1, fun b hb => ha.2 b ((h b).mpr hb)⟩

/-- Two lists with the same elements have minima that agree on whatever all
    key-minimal elements agree on. -/
theorem argmin_map_congr {g : α → γ} {l l' : List α} (hmem : ∀ x, x ∈ l ↔ x ∈ l')
    (hties : ∀ a b, IsKeyMin f l a → IsKeyMin f l b → g a = g b) :
    (l.argmin f).map g = (l'.argmin f).map g := by
  by_cases hl : l = []
  · subst hl
    have hl' : l' = [] := List.eq_nil_iff_forall_not_mem.mpr fun x hx => by
      simpa using (hmem x).mpr hx
    rw [hl']
  · have hl' : l' ≠ [] := by
      obtain ⟨x, hx⟩ := List.exists_mem_of_ne_nil l hl
      exact List.ne_nil_of_mem ((hmem x).mp hx)
    obtain ⟨a, ha⟩ := exists_argmin_of_ne_nil f hl
    obtain ⟨b, hb⟩ := exists_argmin_of_ne_nil f hl'
    have hb' : IsKeyMin f l b := (argmin_isKeyMin hb).congr fun x => (hmem x).symm
    simp only [ha, hb, Option.map_some, hties a b (argmin_isKeyMin ha) hb']

theorem argmin_cons_of_le (h : ∀ b ∈ l, f a ≤ f b) : (a :: l).argmin f = some a := by
  rw [List.argmin_cons]
  cases hl : l.argmin f with
  | none => rfl
  | some c =>
    have hac : f a ≤ f c := h c (List.argmin_mem hl)
    simp [not_lt.mpr hac]

/-- The first minimum of two lists in a row: the left one's, unless the right one's
    is strictly smaller. -/
theorem argmin_append (f : α → β) (l l' : List α) :
    (l ++ l').argmin f = match l.argmin f, l'.argmin f with
      | none, r => r
      | some a, none => some a
      | some a, some b => if f b < f a then some b else some a := by
  induction l' using List.reverseRecOn with
  | nil => cases h : l.argmin f <;> simp [h]
  | append_singleton l' x ih =>
    rw [← List.append_assoc, List.argmin_concat, ih, List.argmin_concat]
    cases l.argmin f with
    | none => rfl
    | some a =>
      cases l'.argmin f with
      | none => rfl
      | some b =>
        by_cases hba : f b < f a <;> by_cases hxb : f x < f b <;> by_cases hxa : f x < f a
          <;> simp only [hba, hxb, hxa, if_true, if_false]
        · exact absurd (hxb.trans hba) hxa
        · exact absurd (lt_of_lt_of_le hxa (not_lt.mp hba)) hxb

theorem argmin_append_eq_some {l l' : List α} (h : (l ++ l').argmin f = some a) :
    (l.argmin f = some a ∧ ∀ b ∈ l', f a ≤ f b)
      ∨ (l'.argmin f = some a ∧ ∀ b ∈ l, f a < f b) := by
  have hle : ∀ b ∈ l ++ l', f a ≤ f b := fun b hb => List.le_of_mem_argmin hb h
  rw [argmin_append] at h
  cases hl : l.argmin f with
  | none =>
    obtain rfl := List.argmin_eq_none.mp hl
    exact .inr ⟨by simpa using h, by simp⟩
  | some c =>
    cases hl' : l'.argmin f with
    | none =>
      obtain rfl := List.argmin_eq_none.mp hl'
      rw [hl, hl'] at h
      exact .inl ⟨h, by simp⟩
    | some d =>
      rw [hl, hl'] at h
      simp only at h
      by_cases hdc : f d < f c
      · rw [if_pos hdc] at h
        obtain rfl := Option.some.inj h
        exact .inr ⟨rfl, fun b hb => lt_of_lt_of_le hdc (List.le_of_mem_argmin hb hl)⟩
      · rw [if_neg hdc] at h
        exact .inl ⟨h, fun b hb => hle b (List.mem_append_right l hb)⟩

/-- A first minimum survives an element put into the list, if it is strictly
    smaller, or as small and in front of it. -/
theorem argmin_insert_of_le {l l' : List α} {a x : α} (h : (l ++ l').argmin f = some a)
    (hx : f a < f x ∨ f a ≤ f x ∧ l.argmin f = some a) : (l ++ x :: l').argmin f = some a := by
  have hle : f a ≤ f x := hx.elim le_of_lt And.left
  rw [argmin_append]
  rcases argmin_append_eq_some h with ⟨hl, hl'⟩ | ⟨hl', hl⟩
  · obtain ⟨d, hd⟩ := exists_argmin_of_ne_nil f (List.cons_ne_nil x l')
    have had : f a ≤ f d := by
      rcases List.mem_cons.mp (List.argmin_mem hd) with rfl | hdl
      · exact hle
      · exact hl' d hdl
    simp only [hl, hd, if_neg (not_lt.mpr had)]
  · have hax : f a < f x := by
      rcases hx with hlt | ⟨-, hla⟩
      · exact hlt
      · exact absurd (hl a (List.argmin_mem hla)) (lt_irrefl _)
    have hcons : (x :: l').argmin f = some a := by
      rw [List.argmin_cons, hl']
      simp [hax]
    rw [hcons]
    cases hc : l.argmin f with
    | none => rfl
    | some c => simp only [if_pos (hl c (List.argmin_mem hc))]

theorem argmin_insert_of_not_le {l l' : List α} {a x : α} (h : (l ++ l').argmin f = some a)
    (hx : ¬ (f a < f x ∨ f a ≤ f x ∧ l.argmin f = some a)) : (l ++ x :: l').argmin f = some x := by
  rw [not_or, not_lt, not_and] at hx
  have hcons : (x :: l').argmin f = some x :=
    argmin_cons_of_le fun b hb => hx.1.trans (List.le_of_mem_argmin (List.mem_append_right l hb) h)
  rw [argmin_append, hcons]
  cases hc : l.argmin f with
  | none => rfl
  | some c =>
    have hac : f a ≤ f c := List.le_of_mem_argmin (List.mem_append_left l' (List.argmin_mem hc)) h
    have hxc : f x < f c := by
      refine lt_of_le_of_ne (hx.1.trans hac) fun heq => ?_
      -- then `a` is as small as `x`, so it does not come from `l`; but `c` does
      have hax : f a ≤ f x := hac.trans heq.ge
      rcases argmin_append_eq_some h with ⟨hla, -⟩ | ⟨-, hl⟩
      · exact hx.2 hax hla
      · exact absurd (hl c (List.argmin_mem hc)) (not_lt.mpr (heq.ge.trans hx.1))
    simp only [if_pos hxc]

/-- Reading a projection of the elements commutes with taking the first minimum. -/
theorem map_argmin_comp {δ : Type*} (f : γ → β) (g : δ → γ) (l : List δ) :
    (l.argmin fun x => f (g x)).map g = (l.map g).argmin f := by
  induction l using List.reverseRecOn with
  | nil => rfl
  | append_singleton l x ih =>
    rw [List.map_append, List.map_singleton, List.argmin_concat, List.argmin_concat, ← ih]
    cases (l.argmin fun x => f (g x)) with
    | none => rfl
    | some c =>
      simp only [Option.map_some]
      split <;> rfl

/-! ## The minimum by index -/

/-- Index of the first element with the smallest key. -/
def firstMinIdx (f : α → β) (l : List α) : Option Nat :=
  (l.zipIdx.argmin fun p => f p.1).map Prod.snd

theorem getElem?_firstMinIdx {i : Nat} (h : firstMinIdx f l = some i) : l[i]? = l.argmin f := by
  obtain ⟨p, hp, rfl⟩ := Option.map_eq_some_iff.mp h
  have hfst : l.argmin f = some p.1 := by
    have hmap := map_argmin_comp f Prod.fst l.zipIdx
    rw [List.zipIdx_map_fst, hp] at hmap
    exact hmap.symm
  rw [hfst]
  exact List.mem_zipIdx_iff_getElem?.mp (List.argmin_mem hp)

theorem exists_firstMinIdx (h : l ≠ []) : ∃ i, firstMinIdx f l = some i := by
  have hz : l.zipIdx ≠ [] := by simpa using h
  obtain ⟨p, hp⟩ := exists_argmin_of_ne_nil (fun p : α × Nat => f p.1) hz
  exact ⟨p.2, by simp [firstMinIdx, hp]⟩

/-- Take out element `i`, moving the last element into its place. -/
def swapRemove (l : List α) (i : Nat) : Option (α × List α) :=
  match l[i]?, l.getLast? with
  | some a, some z => some (a, (l.set i z).dropLast)
  | _, _ => none

theorem exists_swapRemove {i : Nat} (h : l[i]? = some a) :
    ∃ rest, swapRemove l i = some (a, rest) := by
  have hne : l ≠ [] := by
    rintro rfl
    simp at h
  obtain ⟨z, hz⟩ := Option.ne_none_iff_exists'.mp fun hnone => hne (List.getLast?_eq_none_iff.mp hnone)
  exact ⟨(l.set i z).dropLast, by simp [swapRemove, h, hz]⟩

/-- Swap-removal splits a vector into the element and the rest, in some order. -/
theorem swapRemove_perm {i : Nat} {rest : List α}
    (h : swapRemove l i = some (a, rest)) : (a :: rest).Perm l := by
  unfold swapRemove at h
  cases hai : l[i]? with
  | none => simp [hai] at h
  | some x =>
    cases hz : l.getLast? with
    | none => simp [hai, hz] at h
    | some z =>
      simp only [hai, hz, Option.some.injEq, Prod.mk.injEq] at h
      obtain ⟨rfl, rfl⟩ := h
      obtain ⟨init, rfl⟩ := List.getLast?_eq_some_iff.mp hz
      obtain ⟨hi, hget⟩ := List.getElem?_eq_some_iff.mp hai
      by_cases hlast : i = init.length
      · subst hlast
        have hxz : x = z := by simpa using hget.symm
        subst hxz
        simpa using (List.perm_append_singleton x init).symm
      · have hi' : i < init.length := by
          simp only [List.length_append, List.length_singleton] at hi
          omega
        have hx : x = init[i] := by
          rw [← hget, List.getElem_append_left hi']
        rw [List.set_append_left _ _ hi', List.dropLast_concat]
        -- moving `z` over `init[i]` leaves `init` with `z` in place of `x`
        have hsplit : init = init.take i ++ init[i] :: init.drop (i + 1) := by simp
        have hset : init.set i z = init.take i ++ z :: init.drop (i + 1) := by
          rw [List.set_eq_take_append_cons_drop, if_pos hi']
        rw [hset, hx]
        calc (init[i] :: (init.take i ++ z :: init.drop (i + 1))).Perm
              (init[i] :: z :: (init.take i ++ init.drop (i + 1))) :=
              (List.perm_middle).cons _
          _ |>.Perm (z :: init[i] :: (init.take i ++ init.drop (i + 1))) := List.Perm.swap _ _ _
          _ |>.Perm (z :: (init.take i ++ init[i] :: init.drop (i + 1))) :=
              (List.perm_middle.symm).cons _
          _ |>.Perm (z :: init) := by rw [← hsplit]
          _ |>.Perm (init ++ [z]) := (List.perm_append_singleton z init).symm

end FirstMin
