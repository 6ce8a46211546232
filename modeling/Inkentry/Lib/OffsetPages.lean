/-
  Inkentry.Lib.OffsetPages

  Reading a list page by page through an offset while it changes.

  Each request sees the list of its moment and takes the page behind its offset.
  What makes the walk sound is that nothing moves across the next offset between
  two requests (`SameSide`): what has been read then stays in front of it, so no
  page shows it again (`not_mem_later_page`), and what has not been read stays
  behind it until a page does (`mem_page_of_stays`).
-/

import Mathlib.Data.List.Basic

namespace OffsetPages

variable {α : Type*} {size : Nat} {l l' : List α} {x : α}

/-- The page with a number. -/
def page (size i : Nat) (l : List α) : List α := (l.drop (i * size)).take size

/-- Nothing that is in both lists moves across a position. -/
def SameSide (k : Nat) (l l' : List α) : Prop :=
  ∀ x ∈ l, x ∈ l' → (x ∈ l.take k ↔ x ∈ l'.take k)

instance [DecidableEq α] (k : Nat) (l l' : List α) : Decidable (SameSide k l l') :=
  inferInstanceAs (Decidable (∀ x ∈ l, x ∈ l' → (x ∈ l.take k ↔ x ∈ l'.take k)))

theorem take_succ_page (size i : Nat) (l : List α) :
    l.take ((i + 1) * size) = l.take (i * size) ++ page size i l := by
  rw [Nat.succ_mul, List.take_add, page]

theorem mem_page_iff (hnodup : l.Nodup) {i : Nat} :
    x ∈ page size i l ↔ x ∈ l.take ((i + 1) * size) ∧ x ∉ l.take (i * size) := by
  have hsplit : (l.take (i * size) ++ page size i l).Nodup := by
    rw [← take_succ_page]
    exact hnodup.sublist (List.take_sublist _ _)
  have hdisjoint := (List.nodup_append.mp hsplit).2.2
  rw [take_succ_page, List.mem_append]
  constructor
  · intro hpage
    exact ⟨.inr hpage, fun hfront => hdisjoint x hfront x hpage rfl⟩
  · rintro ⟨hfront | hpage, hout⟩
    · exact absurd hfront hout
    · exact hpage

theorem length_lt_of_short {i : Nat} (h : (page size i l).length < size) :
    l.length < (i + 1) * size := by
  rw [page, List.length_take, List.length_drop] at h
  rw [Nat.succ_mul]
  omega

theorem short_of_length_lt {i : Nat} (hsize : 0 < size) (h : l.length < (i + 1) * size) :
    (page size i l).length < size := by
  rw [Nat.succ_mul] at h
  rw [page, List.length_take, List.length_drop]
  omega

/-! ## A walk over the lists of its requests -/

section Walk

variable {lists : Nat → List α}

/-- What a page showed stays in front of the later offsets.  By induction on the requests after
    it. -/
theorem mem_front_of_read (hnodup : ∀ i, (lists i).Nodup) {i d : Nat}
    (hread : x ∈ page size i (lists i)) (hstays : ∀ m, i ≤ m → m ≤ i + d + 1 → x ∈ lists m)
    (hside : ∀ m, i ≤ m → m < i + d + 1 → SameSide ((m + 1) * size) (lists m) (lists (m + 1))) :
    x ∈ (lists (i + d + 1)).take ((i + d + 1) * size) := by
  induction d with
  | zero =>
    have hfront : x ∈ (lists i).take ((i + 1) * size) := ((mem_page_iff (hnodup i)).mp hread).1
    exact (hside i (Nat.le_refl _) (by omega) x (hstays i (Nat.le_refl _) (by omega))
      (hstays (i + 1) (by omega) (by omega))).mp hfront
  | succ d ih =>
    have hfront := ih (fun m hm hle => hstays m hm (by omega)) fun m hm hlt => hside m hm (by omega)
    have hlonger : x ∈ (lists (i + d + 1)).take ((i + d + 1 + 1) * size) := by
      rw [take_succ_page]
      exact List.mem_append_left _ hfront
    exact (hside (i + d + 1) (by omega) (by omega) x (hstays _ (by omega) (by omega))
      (hstays (i + d + 1 + 1) (by omega) (by omega))).mp hlonger

theorem not_mem_later_page (hnodup : ∀ i, (lists i).Nodup) {i j : Nat} (hij : i < j)
    (hread : x ∈ page size i (lists i)) (hstays : ∀ m, i ≤ m → m ≤ j → x ∈ lists m)
    (hside : ∀ m, i ≤ m → m < j → SameSide ((m + 1) * size) (lists m) (lists (m + 1))) :
    x ∉ page size j (lists j) := by
  obtain ⟨d, rfl⟩ : ∃ d, j = i + d + 1 := ⟨j - i - 1, by omega⟩
  intro hagain
  exact ((mem_page_iff (hnodup _)).mp hagain).2 (mem_front_of_read hnodup hread hstays hside)

theorem not_mem_front_of_unread {k : Nat} (hstays : ∀ m ≤ k, x ∈ lists m)
    (hside : ∀ m < k, SameSide ((m + 1) * size) (lists m) (lists (m + 1)))
    (hunread : ∀ m ≤ k, x ∉ page size m (lists m)) : x ∉ (lists k).take ((k + 1) * size) := by
  induction k with
  | zero =>
    intro hfront
    rw [take_succ_page, Nat.zero_mul, List.take_zero, List.nil_append] at hfront
    exact hunread 0 (Nat.le_refl _) hfront
  | succ k ih =>
    have hbehind := ih (fun m hm => hstays m (by omega)) (fun m hm => hside m (by omega))
      fun m hm => hunread m (by omega)
    intro hfront
    rw [take_succ_page] at hfront
    rcases List.mem_append.mp hfront with hbefore | hpage
    · exact hbehind ((hside k (by omega) x (hstays k (by omega)) (hstays (k + 1) (Nat.le_refl _))).mpr
        hbefore)
    · exact hunread (k + 1) (Nat.le_refl _) hpage

/-- A walk whose last page is not full has shown everything that stayed. -/
theorem mem_page_of_stays {k : Nat} (hstays : ∀ m ≤ k, x ∈ lists m)
    (hside : ∀ m < k, SameSide ((m + 1) * size) (lists m) (lists (m + 1)))
    (hshort : (page size k (lists k)).length < size) :
    ∃ m ≤ k, x ∈ page size m (lists m) := by
  by_contra hnone
  have hunread : ∀ m ≤ k, x ∉ page size m (lists m) := fun m hm hpage => hnone ⟨m, hm, hpage⟩
  have hwhole : (lists k).take ((k + 1) * size) = lists k :=
    List.take_of_length_le (by have hlt := length_lt_of_short hshort; omega)
  have hbehind := not_mem_front_of_unread hstays hside hunread
  rw [hwhole] at hbehind
  exact hbehind (hstays k (Nat.le_refl _))

end Walk

end OffsetPages
