/-
  Inkentry.Lib.Leaders

  Rows in groups, of which each shows its best row: a stable sort by a key and
  then the first row of each group.

  A row is shown when no row of its group comes before it and, of the rows of
  its group with the same key, it is the first in the list (`mem_leaders_iff`);
  and a group's row is among the first `k` when fewer than `k` groups have a
  row before it (`mem_take_leaders_iff`, `countP_leaders`).
-/

import Inkentry.Lib.Firsts
import Inkentry.Lib.OrderedCut
import Mathlib.Data.List.Dedup

namespace Leaders

open OrderLimit Firsts

variable {α γ κ : Type*} [DecidableEq γ] [LinearOrder κ] {group : α → γ} {key : α → κ} {l l' : List α}
  {a : α}

/-- The best row of each group, in order. -/
def leaders (group : α → γ) (key : α → κ) (l : List α) : List α := firsts group (sortBy key l)

/-- No row of its group comes before it. -/
def Leads (group : α → γ) (key : α → κ) (l : List α) (a : α) : Prop :=
  ∀ b ∈ l, group b = group a → key a ≤ key b

instance (group : α → γ) (key : α → κ) (l : List α) (a : α) : Decidable (Leads group key l a) :=
  inferInstanceAs (Decidable (∀ b ∈ l, _ → _))

theorem Leads.perm (h : Leads group key l a) (hperm : l.Perm l') : Leads group key l' a :=
  fun b hb => h b (hperm.mem_iff.mpr hb)

theorem mem_of_mem_leaders (h : a ∈ leaders group key l) : a ∈ l :=
  (mem_sortBy key).mp (mem_of_mem_firsts h)

theorem leaders_groups_nodup : ((leaders group key l).map group).Nodup := firsts_keys_nodup _ _

theorem leaders_pairwise : (leaders group key l).Pairwise fun a b => key a ≤ key b :=
  (sortBy_pairwise key l).sublist (firsts_sublist group _)

theorem eq_of_mem_leaders {b : α} (ha : a ∈ leaders group key l) (hb : b ∈ leaders group key l)
    (hgroup : group a = group b) : a = b := eq_of_mem_firsts ha hb hgroup

/-- The rows of one key keep their order, so the sort finds the row the list has first. -/
theorem find?_sortBy (group : α → γ) (key : α → κ) (l : List α) (a : α) :
    (sortBy key l).find? (fun b => decide (key b = key a ∧ group b = group a))
      = l.find? fun b => decide (key b = key a ∧ group b = group a) := by
  have hfilter : ∀ m : List α, (m.find? fun b => decide (key b = key a ∧ group b = group a))
      = (m.filter fun b => key b = key a).find? fun b => group b = group a := by
    intro m
    rw [List.find?_filter]
    simp
  rw [hfilter, sortBy_filter_tie, hfilter]

theorem leads_of_mem_leaders (h : a ∈ leaders group key l) : Leads group key l a := by
  obtain ⟨-, front, back, hsplit, hfront⟩ :=
    List.find?_eq_some_iff_append.mp (mem_firsts_iff.mp h)
  intro b hb hgroup
  have hmem : b ∈ front ++ a :: back := hsplit ▸ (mem_sortBy key).mpr hb
  have hsorted := sortBy_pairwise key l
  rw [hsplit] at hsorted
  rcases List.mem_append.mp hmem with hbf | hba
  · exact absurd hgroup (by simpa using hfront b hbf)
  · rcases List.mem_cons.mp hba with rfl | hbb
    · exact le_refl _
    · exact List.rel_of_pairwise_cons (List.pairwise_append.mp hsorted).2.1 hbb

theorem find?_of_mem_leaders (h : a ∈ leaders group key l) :
    (l.find? fun b => decide (key b = key a ∧ group b = group a)) = some a := by
  obtain ⟨-, front, back, hsplit, hfront⟩ :=
    List.find?_eq_some_iff_append.mp (mem_firsts_iff.mp h)
  rw [← find?_sortBy]
  refine List.find?_eq_some_iff_append.mpr ⟨by simp, front, back, hsplit, fun b hb => ?_⟩
  have hgroup := hfront b hb
  simp only [Bool.not_eq_true', decide_eq_false_iff_not] at hgroup
  simp [hgroup]

/-- Every group shows a row, which no row of the group comes before. -/
theorem exists_mem_leaders (ha : a ∈ l) :
    ∃ b ∈ leaders group key l, group b = group a ∧ key b ≤ key a := by
  obtain ⟨b, hb, hgroup⟩ : ∃ b ∈ leaders group key l, group b = group a :=
    exists_mem_firsts ((mem_sortBy key).mpr ha)
  exact ⟨b, hb, hgroup, leads_of_mem_leaders hb a ha hgroup.symm⟩

theorem mem_leaders_iff : a ∈ leaders group key l ↔ Leads group key l a
    ∧ (l.find? fun b => decide (key b = key a ∧ group b = group a)) = some a := by
  refine ⟨fun h => ⟨leads_of_mem_leaders h, find?_of_mem_leaders h⟩, fun ⟨hleads, hfind⟩ => ?_⟩
  have ha := List.mem_of_find?_eq_some hfind
  obtain ⟨b, hb, hgroup, hle⟩ : ∃ b ∈ leaders group key l, group b = group a ∧ key b ≤ key a :=
    exists_mem_leaders ha
  have hkey : key b = key a := le_antisymm hle (hleads b (mem_of_mem_leaders hb) hgroup)
  have hfind' := find?_of_mem_leaders hb
  rw [hkey, hgroup, hfind] at hfind'
  exact Option.some.inj hfind' ▸ hb

/-- How many groups show a row of a kind that whatever comes before such a row is of too. -/
theorem countP_leaders {p : α → Bool} (hp : ∀ a b, key a ≤ key b → p b = true → p a = true) :
    (leaders group key l).countP p = ((l.filter p).map group).dedup.length := by
  have hnodup : (((leaders group key l).filter p).map group).Nodup :=
    leaders_groups_nodup.sublist (List.filter_sublist.map group)
  have hperm : (((leaders group key l).filter p).map group).Perm ((l.filter p).map group).dedup := by
    refine (List.perm_ext_iff_of_nodup hnodup (List.nodup_dedup _)).mpr fun g => ?_
    simp only [List.mem_dedup, List.mem_map, List.mem_filter]
    constructor
    · rintro ⟨a, ⟨ha, hpa⟩, rfl⟩
      exact ⟨a, ⟨mem_of_mem_leaders ha, hpa⟩, rfl⟩
    · rintro ⟨a, ⟨ha, hpa⟩, rfl⟩
      obtain ⟨b, hb, hgroup, hle⟩ : ∃ b ∈ leaders group key l, group b = group a ∧ key b ≤ key a :=
        exists_mem_leaders ha
      exact ⟨b, ⟨hb, hp b a hle hpa⟩, hgroup⟩
  rw [List.countP_eq_length_filter, ← hperm.length_eq, List.length_map]

/-- Where a key is of one group, a row is among the first `k` when fewer than `k` groups show a
row before it. -/
theorem mem_take_leaders_iff (hone : ∀ a b, key a = key b → group a = group b) {k : ℕ} :
    a ∈ (leaders group key l).take k ↔ a ∈ leaders group key l
      ∧ ((leaders group key l).countP fun b => key b < key a) < k := by
  have hkeys : ((leaders group key l).map key).Nodup :=
    (List.Nodup.of_map group leaders_groups_nodup).map_on fun a ha b hb heq =>
      eq_of_mem_leaders ha hb (hone a b heq)
  rw [← mem_orderLimit_iff hkeys, orderLimit, sortBy_eq_self key leaders_pairwise]

theorem full_of_not_mem_take {k : ℕ} (ha : a ∈ leaders group key l)
    (hout : a ∉ (leaders group key l).take k) :
    k ≤ ((leaders group key l).take k).length
      ∧ ∀ b ∈ (leaders group key l).take k, key b ≤ key a := by
  have hsplit := List.take_append_drop k (leaders group key l)
  have hdrop : a ∈ (leaders group key l).drop k := by
    rw [← hsplit] at ha
    exact (List.mem_append.mp ha).resolve_left hout
  refine ⟨?_, fun b hb => ?_⟩
  · have hpos := List.length_pos_of_mem hdrop
    rw [List.length_drop] at hpos
    rw [List.length_take]
    omega
  · have hpair : (leaders group key l).Pairwise fun a b => key a ≤ key b := leaders_pairwise
    rw [← hsplit] at hpair
    exact (List.pairwise_append.mp hpair).2.2 b hb a hdrop

end Leaders
