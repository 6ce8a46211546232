/-
  Inkentry.Lib.Firsts

  A list without the rows whose key has come before: of each key, the first
  row stays, in its place.
-/

import Mathlib.Data.List.Nodup

namespace Firsts

variable {α β κ κ' : Type*} [DecidableEq κ] [DecidableEq κ'] {key : α → κ} {l l' : List α}

/-- The first row of each key. -/
def firsts (key : α → κ) : List α → List α
  | [] => []
  | a :: l => a :: (firsts key l).filter fun b => key b ≠ key a

theorem firsts_sublist (key : α → κ) (l : List α) : (firsts key l).Sublist l := by
  induction l with
  | nil => exact List.Sublist.slnil
  | cons a l ih => exact (List.filter_sublist.trans ih).cons_cons a

theorem mem_of_mem_firsts {a : α} (h : a ∈ firsts key l) : a ∈ l := (firsts_sublist key l).subset h

theorem mem_firsts_iff {a : α} : a ∈ firsts key l ↔ l.find? (fun b => key b = key a) = some a := by
  induction l with
  | nil => simp [firsts]
  | cons b l ih =>
    rw [firsts, List.mem_cons, List.mem_filter, ih, List.find?_cons]
    by_cases hkey : key b = key a
    · simp [hkey, eq_comm]
    · have hne : a ≠ b := fun h => hkey (h ▸ rfl)
      simp [hkey, hne, Ne.symm hkey]

theorem firsts_keys_nodup (key : α → κ) (l : List α) : ((firsts key l).map key).Nodup := by
  induction l with
  | nil => exact List.nodup_nil
  | cons a l ih =>
    refine List.nodup_cons.mpr ⟨?_, ih.sublist (List.filter_sublist.map key)⟩
    intro hmem
    obtain ⟨b, hb, hkey⟩ := List.mem_map.mp hmem
    exact of_decide_eq_true (List.mem_filter.mp hb).2 hkey

theorem eq_of_mem_firsts {a b : α} (ha : a ∈ firsts key l) (hb : b ∈ firsts key l)
    (hkey : key a = key b) : a = b :=
  List.inj_on_of_nodup_map (firsts_keys_nodup key l) ha hb hkey

theorem exists_mem_firsts {a : α} (ha : a ∈ l) : ∃ b ∈ firsts key l, key b = key a := by
  obtain ⟨b, hb⟩ : ∃ b, l.find? (fun b => key b = key a) = some b :=
    Option.isSome_iff_exists.mp (List.find?_isSome.mpr ⟨a, ha, by simp⟩)
  have hkey : key b = key a := by simpa using List.find?_some hb
  exact ⟨b, mem_firsts_iff.mpr (by rw [hkey]; exact hb), hkey⟩

theorem mem_map_firsts_iff {k : κ} : k ∈ (firsts key l).map key ↔ k ∈ l.map key := by
  simp only [List.mem_map]
  constructor
  · rintro ⟨a, ha, rfl⟩
    exact ⟨a, mem_of_mem_firsts ha, rfl⟩
  · rintro ⟨a, ha, rfl⟩
    exact exists_mem_firsts ha

theorem firsts_congr {key' : α → κ'}
    (hkey : ∀ a ∈ l, ∀ b ∈ l, key a = key b ↔ key' a = key' b) :
    firsts key l = firsts key' l := by
  induction l with
  | nil => rfl
  | cons a l ih =>
    rw [firsts, firsts, ih fun b hb c hc => hkey b (List.mem_cons_of_mem a hb) c
      (List.mem_cons_of_mem a hc)]
    refine congrArg (a :: ·) (List.filter_congr fun b hb => ?_)
    have hba := hkey b (List.mem_cons_of_mem a (mem_of_mem_firsts hb)) a List.mem_cons_self
    simp [hba]

theorem firsts_map (f : β → α) (key : α → κ) (l : List β) :
    firsts key (l.map f) = (firsts (fun b => key (f b)) l).map f := by
  induction l with
  | nil => rfl
  | cons b l ih => rw [List.map_cons, firsts, firsts, List.map_cons, ih, List.filter_map]; rfl

end Firsts
