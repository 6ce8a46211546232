/-
  Inkentry.Lib.FirstCut

  Text cut where a pattern first occurs: what follows it, a first occurrence
  replaced, and a suffix that is taken off.
-/

import Mathlib.Data.List.Infix

namespace FirstCut

variable {α : Type*} [DecidableEq α]

/-- What follows the first occurrence of a pattern. -/
def after? (pat : List α) : List α → Option (List α)
  | [] => if pat = [] then some [] else none
  | c :: text => if pat <+: c :: text then some ((c :: text).drop pat.length) else after? pat text

/-- The text with the first occurrence of an element replaced. -/
def replaceFirst (a b : α) : List α → List α
  | [] => []
  | c :: text => if c = a then b :: text else c :: replaceFirst a b text

/-- The text without a suffix, where it has it. -/
def stripSuffix (suffix text : List α) : List α :=
  if suffix <:+ text then text.take (text.length - suffix.length) else text

/-! ## What follows -/

theorem after?_prefix (pat text : List α) (hpat : pat ≠ []) :
    after? pat (pat ++ text) = some text := by
  obtain ⟨c, rest, rfl⟩ := List.exists_cons_of_ne_nil hpat
  rw [List.cons_append, after?, if_pos ⟨text, rfl⟩, ← List.cons_append, List.drop_left]

theorem exists_of_after? {pat : List α} : ∀ {text rest : List α}, after? pat text = some rest →
    ∃ front, text = front ++ pat ++ rest
  | [], rest, h => by
    rw [after?] at h
    split at h
    · obtain rfl := Option.some.inj h
      exact ⟨[], by simp [*]⟩
    · cases h
  | c :: text, rest, h => by
    rw [after?] at h
    split at h
    case isTrue hpre =>
      obtain ⟨t, ht⟩ := hpre
      obtain rfl := Option.some.inj h
      refine ⟨[], ?_⟩
      rw [← ht, List.drop_left, List.nil_append]
    case isFalse =>
      obtain ⟨front, hfront⟩ := exists_of_after? h
      exact ⟨c :: front, by rw [hfront]; rfl⟩

theorem after?_eq_none_iff {pat : List α} (hpat : pat ≠ []) : ∀ {text : List α},
    after? pat text = none ↔ ¬ pat <:+: text
  | [] => by simp [after?, hpat]
  | c :: text => by
    rw [after?, List.infix_cons_iff]
    split
    case isTrue hpre => simp [hpre]
    case isFalse hpre => simp [hpre, after?_eq_none_iff hpat]

theorem after?_append {a : α} (pat : List α) : ∀ {front : List α}, a ∉ front → ∀ text,
    after? (a :: pat) (front ++ (a :: pat ++ text)) = some text
  | [], _, text => after?_prefix (a :: pat) text (List.cons_ne_nil a pat)
  | c :: front, h, text => by
    obtain ⟨hne, hfront⟩ := List.ne_and_not_mem_of_not_mem_cons h
    rw [List.cons_append, after?, if_neg, after?_append pat hfront]
    rintro ⟨t, ht⟩
    exact hne (List.cons.inj ht).1

theorem after?_singleton_none {a : α} {text : List α} (h : a ∉ text) : after? [a] text = none :=
  (after?_eq_none_iff (List.cons_ne_nil a [])).mpr fun hin => h (hin.subset List.mem_cons_self)

/-! ## Replacing -/

theorem replaceFirst_of_not_mem {a b : α} : ∀ {text : List α}, a ∉ text →
    replaceFirst a b text = text
  | [], _ => rfl
  | c :: text, h => by
    obtain ⟨hne, htext⟩ := List.ne_and_not_mem_of_not_mem_cons h
    rw [replaceFirst, if_neg (Ne.symm hne), replaceFirst_of_not_mem htext]

theorem replaceFirst_append_cons {a b : α} : ∀ {front : List α}, a ∉ front → ∀ text,
    replaceFirst a b (front ++ a :: text) = front ++ b :: text
  | [], _, text => by rw [List.nil_append, replaceFirst, if_pos rfl, List.nil_append]
  | c :: front, h, text => by
    obtain ⟨hne, hfront⟩ := List.ne_and_not_mem_of_not_mem_cons h
    rw [List.cons_append, replaceFirst, if_neg (Ne.symm hne), replaceFirst_append_cons hfront,
      List.cons_append]

theorem count_replaceFirst {a b : α} (hab : a ≠ b) : ∀ text : List α,
    (replaceFirst a b text).count b = text.count b + if a ∈ text then 1 else 0
  | [] => rfl
  | c :: text => by
    rw [replaceFirst]
    split
    case isTrue hc => simp [hc, hab]
    case isFalse hc =>
      have hmem : a ∈ c :: text ↔ a ∈ text := by simp [Ne.symm hc]
      rw [List.count_cons, List.count_cons, count_replaceFirst hab]
      simp only [hmem]
      omega

/-- The counts of other elements stay. -/
theorem count_replaceFirst_of_ne {a b c : α} (hca : c ≠ a) (hcb : c ≠ b) : ∀ text : List α,
    (replaceFirst a b text).count c = text.count c
  | [] => rfl
  | d :: text => by
    rw [replaceFirst]
    split
    case isTrue hd => simp [hd, Ne.symm hca, Ne.symm hcb]
    case isFalse => rw [List.count_cons, List.count_cons, count_replaceFirst_of_ne hca hcb]

/-! ## Suffixes -/

theorem stripSuffix_append (suffix text : List α) : stripSuffix suffix (text ++ suffix) = text := by
  rw [stripSuffix, if_pos (List.suffix_append text suffix), List.length_append,
    Nat.add_sub_cancel, List.take_left]

theorem stripSuffix_of_not {suffix text : List α} (h : ¬ suffix <:+ text) :
    stripSuffix suffix text = text := if_neg h

theorem stripSuffix_cases (suffix text : List α) :
    text = stripSuffix suffix text ++ suffix ∨ text = stripSuffix suffix text := by
  by_cases h : suffix <:+ text
  · obtain ⟨front, rfl⟩ := h
    exact .inl (by rw [stripSuffix_append])
  · exact .inr (stripSuffix_of_not h).symm

end FirstCut
