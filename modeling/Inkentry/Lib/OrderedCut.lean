/-
  Inkentry.Lib.OrderedCut

  Rows in the order of a key, cut at a limit, where rows of one key may come in
  any order.  A cut is then not one list: `Cut` holds of every list that some
  such order leaves.

  A cut of two cuts is a cut of the rows of both (`Cut.merge`), and a cut of
  some rows is one of others as long as the rows that differ lie behind it
  (`Cut.of_pools`).
-/

import Inkentry.Lib.OrderLimit

namespace OrderLimit

variable {α κ : Type*} [LinearOrder κ] {key : α → κ} {k : ℕ} {rows pool r l : List α}
variable {x : α}

/-- What some order of the rows by their keys leaves when it is cut at `k`. -/
def Cut (key : α → κ) (k : ℕ) (rows r : List α) : Prop :=
  ∃ l : List α, l.Perm rows ∧ l.Pairwise (fun a b => key a ≤ key b) ∧ r = l.take k

theorem cut_orderLimit (key : α → κ) (k : ℕ) (rows : List α) :
    Cut key k rows (orderLimit key k rows) :=
  ⟨sortBy key rows, sortBy_perm key rows, sortBy_pairwise key rows, rfl⟩

/-- A cut is an ordered choice of `k` rows that no row left out comes before. -/
theorem cut_iff (hrows : rows.Nodup) :
    Cut key k rows r ↔ r.Nodup ∧ r ⊆ rows ∧ r.Pairwise (fun a b => key a ≤ key b)
      ∧ r.length = min k rows.length ∧ ∀ z ∈ rows, z ∉ r → ∀ a ∈ r, key a ≤ key z := by
  constructor
  · rintro ⟨l, hperm, hsorted, rfl⟩
    refine ⟨(hperm.nodup_iff.mpr hrows).sublist (List.take_sublist k l),
      fun a ha => hperm.mem_iff.mp (List.mem_of_mem_take ha),
      hsorted.sublist (List.take_sublist k l), ?_, fun z hz hout a ha => ?_⟩
    · rw [List.length_take, hperm.length_eq]
    · have hmem := hperm.mem_iff.mpr hz
      rw [← List.take_append_drop k l] at hsorted hmem
      exact (List.pairwise_append.mp hsorted).2.2 a ha z ((List.mem_append.mp hmem).resolve_left hout)
  · classical
    rintro ⟨hnodup, hsub, hsorted, hlen, hout⟩
    -- the rows that are left out follow in any order
    have hrest : ∀ z, z ∈ sortBy key (rows.filter (· ∉ r)) ↔ z ∈ rows ∧ z ∉ r := by
      intro z
      rw [mem_sortBy, List.mem_filter, decide_eq_true_eq]
    refine ⟨r ++ sortBy key (rows.filter (· ∉ r)), ?_, ?_, ?_⟩
    · have hall : (r ++ sortBy key (rows.filter (· ∉ r))).Nodup := by
        refine List.nodup_append'.mpr ⟨hnodup, ?_, fun z hz hz' => ((hrest z).mp hz').2 hz⟩
        exact (sortBy_perm key _).nodup_iff.mpr (hrows.filter _)
      refine (List.perm_ext_iff_of_nodup hall hrows).mpr fun z => ?_
      rw [List.mem_append, hrest]
      have := @hsub z
      tauto
    · refine List.pairwise_append.mpr ⟨hsorted, sortBy_pairwise key _, fun a ha z hz => ?_⟩
      obtain ⟨hz, hzr⟩ := (hrest z).mp hz
      exact hout z hz hzr a ha
    · obtain hfull | hshort : r.length = k ∨ r.length = rows.length ∧ r.length ≤ k := by omega
      · rw [List.take_left' hfull]
      · have hsame := (List.subperm_of_subset hnodup hsub).perm_of_length_le hshort.1.ge
        have hnone : sortBy key (rows.filter (· ∉ r)) = [] := by
          refine List.eq_nil_iff_forall_not_mem.mpr fun z hz => ?_
          obtain ⟨hz, hzr⟩ := (hrest z).mp hz
          exact hzr (hsame.mem_iff.mpr hz)
        rw [hnone, List.append_nil, List.take_of_length_le hshort.2]

theorem Cut.subset (h : Cut key k rows r) : r ⊆ rows := by
  obtain ⟨l, hperm, -, rfl⟩ := h
  exact fun a ha => hperm.mem_iff.mp (List.mem_of_mem_take ha)

theorem Cut.countP_lt (h : Cut key k rows r) {a : α} (ha : a ∈ r) {p : α → Bool}
    (hp : ∀ b ∈ rows, p b = true → key b < key a) : rows.countP p < k := by
  obtain ⟨l, hperm, hsorted, rfl⟩ := h
  obtain ⟨front, back, hsplit⟩ := List.append_of_mem ha
  have hl : l = front ++ a :: (back ++ l.drop k) := by
    conv_lhs => rw [← List.take_append_drop k l, hsplit]
    rw [List.append_assoc, List.cons_append]
  have hlen := congrArg List.length hsplit
  rw [List.length_take, List.length_append, List.length_cons] at hlen
  have hmem : ∀ b ∈ a :: (back ++ l.drop k), b ∈ rows := by
    intro b hb
    rw [← hperm.mem_iff, hl]
    exact List.mem_append_right _ hb
  rw [hl] at hsorted
  obtain ⟨-, hback, -⟩ := List.pairwise_append.mp hsorted
  have hnone : (a :: (back ++ l.drop k)).countP p = 0 := by
    refine List.countP_eq_zero.mpr fun b hb hpb => ?_
    have hlt := hp b (hmem b hb) hpb
    obtain rfl | hb' := List.mem_cons.mp hb
    · exact lt_irrefl _ hlt
    · exact absurd (List.rel_of_pairwise_cons hback hb') (not_le.mpr hlt)
  have hfront : front.countP p ≤ front.length := List.countP_le_length
  rw [← hperm.countP_eq, hl, List.countP_append, hnone]
  omega

/-- Rows that come before `k` others of the rows are not in the cut, nor is one that comes after
them. -/
theorem Cut.le_of_countP (h : Cut key k rows r) {c : κ}
    (hcount : k ≤ rows.countP fun b => key b ≤ c) {a : α} (ha : a ∈ r) : key a ≤ c := by
  by_contra hlt
  refine absurd (h.countP_lt ha fun b _ hb => ?_) (not_lt.mpr hcount)
  exact (of_decide_eq_true hb).trans_lt (not_le.mp hlt)

theorem Cut.not_mem_of_countP (h : Cut key k rows r)
    (hcount : k ≤ rows.countP fun b => key b < key x) : x ∉ r := by
  intro hx
  exact absurd (h.countP_lt hx fun b _ hb => of_decide_eq_true hb) (not_lt.mpr hcount)

/-- Where the cut does not fall between the rows of its key, a row is in it when fewer than `k`
rows come before. -/
theorem Cut.mem_iff (hrows : rows.Nodup) (h : Cut key k rows r) (hx : x ∈ rows)
    (hwhole : (rows.countP fun b => key b ≤ key x) ≤ k ∨ k ≤ rows.countP fun b => key b < key x) :
    x ∈ r ↔ (rows.countP fun b => key b < key x) < k := by
  refine ⟨fun hxr => h.countP_lt hxr fun b _ hb => of_decide_eq_true hb, fun hlt => ?_⟩
  by_contra hxr
  obtain ⟨hnodup, hsub, -, hlen, hout⟩ := (cut_iff hrows).mp h
  have hle := hwhole.resolve_right (not_le.mpr hlt)
  -- the cut and `x` are at most `k` rows, so the cut has room for `x`
  have hcons : (x :: r).Subperm (rows.filter fun b => key b ≤ key x) := by
    refine List.subperm_of_subset (List.nodup_cons.mpr ⟨hxr, hnodup⟩) fun a ha => ?_
    obtain rfl | har := List.mem_cons.mp ha
    · exact List.mem_filter.mpr ⟨hx, by simp⟩
    · exact List.mem_filter.mpr ⟨hsub har, decide_eq_true (hout x hx hxr a har)⟩
  have hcount := hcons.length_le
  rw [← List.countP_eq_length_filter, List.length_cons] at hcount
  have hsame := (List.subperm_of_subset hnodup hsub).perm_of_length_le (by omega)
  exact hxr (hsame.mem_iff.mpr hx)

/-- Where the cut falls between the rows of a key, it has some of them and lost others. -/
theorem Cut.exists_of_split (hrows : rows.Nodup) (h : Cut key k rows r) {c : κ}
    (hlt : (rows.countP fun b => key b < c) < k) (hle : k < rows.countP fun b => key b ≤ c) :
    (∃ x ∈ r, key x = c) ∧ ∃ y ∈ rows, y ∉ r ∧ key y = c := by
  obtain ⟨hnodup, hsub, -, hlen, hout⟩ := (cut_iff hrows).mp h
  have hbound : (rows.countP fun b => key b ≤ c) ≤ rows.length := List.countP_le_length
  constructor
  · by_contra! hnone
    have hbefore : ∀ a ∈ r, key a < c := fun a ha =>
      lt_of_le_of_ne (h.le_of_countP hle.le ha) (hnone a ha)
    have hall : (r.countP fun b => key b < c) = r.length :=
      List.countP_eq_length.mpr fun a ha => decide_eq_true (hbefore a ha)
    have hsubp := (List.subperm_of_subset hnodup hsub).countP_le fun b => decide (key b < c)
    omega
  · by_contra! hnone
    -- everything up to the key is in the cut
    have hin : (rows.filter fun b => key b ≤ c).Subperm r := by
      refine List.subperm_of_subset (hrows.filter _) fun a ha => ?_
      obtain ⟨ha, hac⟩ := List.mem_filter.mp ha
      by_contra har
      have hac : key a ≤ c := of_decide_eq_true hac
      have hlt' : key a < c := lt_of_le_of_ne hac (hnone a ha har)
      have hall : (r.countP fun b => key b < c) = r.length :=
        List.countP_eq_length.mpr fun b hb =>
          decide_eq_true ((hout a ha har b hb).trans_lt hlt')
      have hsubp := (List.subperm_of_subset hnodup hsub).countP_le fun b => decide (key b < c)
      omega
    have hcount := hin.length_le
    rw [← List.countP_eq_length_filter] at hcount
    omega

/-- A cut of some rows is a cut of others when what only one of them has lies behind it. -/
theorem Cut.of_pools (hrows : rows.Nodup) (hpool : pool.Nodup) (h : Cut key k pool r)
    (hextra : ∀ x ∈ pool, x ∉ rows → k ≤ pool.countP fun b => key b < key x)
    (hmissing : ∀ y ∈ rows, y ∉ pool → k ≤ pool.countP fun b => key b ≤ key y) :
    Cut key k rows r := by
  obtain ⟨hnodup, hsub, hsorted, hlen, hout⟩ := (cut_iff hpool).mp h
  have hin : r ⊆ rows := by
    intro a ha
    by_contra hnot
    exact h.not_mem_of_countP (hextra a (hsub ha) hnot) ha
  refine (cut_iff hrows).mpr ⟨hnodup, hin, hsorted, ?_, fun z hz hzr a ha => ?_⟩
  · have hle := (List.subperm_of_subset hnodup hin).length_le
    obtain hfull | hshort : r.length = k ∨ r.length = pool.length ∧ pool.length < k := by omega
    · omega
    · -- the pool is no longer than the limit, so it is all there is
      have hsame := (List.subperm_of_subset hnodup hsub).perm_of_length_le hshort.1.ge
      have hall : rows ⊆ r := by
        intro y hy
        by_contra hyr
        have hcount := hmissing y hy fun hmem => hyr (hsame.mem_iff.mpr hmem)
        have hbound : (pool.countP fun b => key b ≤ key y) ≤ pool.length := List.countP_le_length
        omega
      have hge := (List.subperm_of_subset hrows hall).length_le
      omega
  · by_cases hzp : z ∈ pool
    · exact hout z hzp hzr a ha
    · exact h.le_of_countP (hmissing z hz hzp) ha

theorem Cut.le_countP (hrows : rows.Nodup) (h : Cut key k rows r) (hsub : r ⊆ l) {y : α}
    (hy : y ∈ rows) (hyr : y ∉ r) : k ≤ l.countP fun b => key b ≤ key y := by
  obtain ⟨hnodup, hin, -, hlen, hout⟩ := (cut_iff hrows).mp h
  have hfull : r.length = k := by
    by_contra hne
    have hsame := (List.subperm_of_subset hnodup hin).perm_of_length_le (by omega)
    exact hyr (hsame.mem_iff.mpr hy)
  have hall : (r.countP fun b => key b ≤ key y) = r.length :=
    List.countP_eq_length.mpr fun a ha => decide_eq_true (hout y hy hyr a ha)
  have hle := (List.subperm_of_subset hnodup hsub).countP_le fun b => decide (key b ≤ key y)
  omega

theorem Cut.orderLimit_eq (h : Cut key k rows r) : orderLimit key k r = r := by
  obtain ⟨l, -, hsorted, rfl⟩ := h
  rw [orderLimit, sortBy_eq_self key (hsorted.sublist (List.take_sublist k l)), List.take_take,
    min_self]

/-- A cut of what two cuts leave is a cut of the rows of both. -/
theorem Cut.merge {rows₁ rows₂ r₁ r₂ merged : List α} (hrows₁ : rows₁.Nodup)
    (hrows₂ : rows₂.Nodup) (hrows : rows.Nodup) (hmerged : merged.Nodup)
    (hboth : ∀ a, a ∈ rows ↔ a ∈ rows₁ ∨ a ∈ rows₂) (h₁ : Cut key k rows₁ r₁)
    (h₂ : Cut key k rows₂ r₂) (hmem : ∀ a, a ∈ merged ↔ a ∈ r₁ ∨ a ∈ r₂) :
    Cut key k rows (orderLimit key k merged) := by
  have hsub : merged ⊆ rows := by
    intro a ha
    rw [hboth]
    exact ((hmem a).mp ha).imp (fun h => h₁.subset h) fun h => h₂.subset h
  have hin₁ : r₁ ⊆ merged := fun a ha => (hmem a).mpr (Or.inl ha)
  have hin₂ : r₂ ⊆ merged := fun a ha => (hmem a).mpr (Or.inr ha)
  refine Cut.of_pools hrows hmerged (cut_orderLimit key k merged)
    (fun x hx hnot => absurd (hsub hx) hnot) fun y hy hym => ?_
  obtain hy₁ | hy₂ := (hboth y).mp hy
  · exact h₁.le_countP hrows₁ hin₁ hy₁ fun hr => hym (hin₁ hr)
  · exact h₂.le_countP hrows₂ hin₂ hy₂ fun hr => hym (hin₂ hr)

/-- The first row of its key is in the cut when fewer than `k` rows come before it. -/
theorem mem_orderLimit_of_first (hfirst : (l.filter fun b => key b = key x).head? = some x)
    (hcount : (l.countP fun b => key b < key x) < k) : x ∈ orderLimit key k l := by
  have hx : x ∈ l := (List.mem_filter.mp (List.mem_of_mem_head? hfirst)).1
  rw [← sortBy_filter_tie] at hfirst
  obtain ⟨front, back, hsplit, hnot⟩ := List.eq_append_cons_of_mem ((mem_sortBy key).mpr hx)
  -- sorting is stable, so nothing of its key stands before it
  have hnone : (front.filter fun b => key b = key x) = [] := by
    cases hfront : front.filter fun b => key b = key x with
    | nil => rfl
    | cons b rest =>
      rw [hsplit, List.filter_append, hfront, List.cons_append, List.head?_cons] at hfirst
      have hb : b ∈ front := (List.mem_filter.mp (hfront ▸ List.mem_cons_self)).1
      exact absurd (Option.some.inj hfirst ▸ hb) hnot
  have hbefore : (front.countP fun b => key b < key x) = front.length := by
    refine List.countP_eq_length.mpr fun b hb => decide_eq_true ?_
    have hsorted := sortBy_pairwise key l
    rw [hsplit] at hsorted
    refine lt_of_le_of_ne ((List.pairwise_append.mp hsorted).2.2 b hb x List.mem_cons_self) ?_
    intro heq
    have hmem : b ∈ front.filter fun b => key b = key x :=
      List.mem_filter.mpr ⟨hb, decide_eq_true heq⟩
    rw [hnone] at hmem
    cases hmem
  have hlen : front.length < k := by
    rw [← (sortBy_perm key l).countP_eq, hsplit, List.countP_append] at hcount
    omega
  rw [orderLimit, hsplit, List.take_append]
  refine List.mem_append_right _ ?_
  obtain ⟨m, hm⟩ := Nat.exists_eq_succ_of_ne_zero (Nat.sub_ne_zero_of_lt hlen)
  rw [hm, List.take_succ_cons]
  exact List.mem_cons_self

theorem head?_filter_orderLimit (hfirst : (l.filter fun b => key b = key x).head? = some x)
    (hx : x ∈ orderLimit key k l) :
    ((orderLimit key k l).filter fun b => key b = key x).head? = some x := by
  rw [orderLimit] at hx ⊢
  have hmem : x ∈ ((sortBy key l).take k).filter fun b => key b = key x :=
    List.mem_filter.mpr ⟨hx, decide_eq_true rfl⟩
  rw [filter_take, sortBy_filter_tie] at hmem ⊢
  rw [List.head?_take, if_neg, hfirst]
  intro hzero
  rw [hzero, List.take_zero] at hmem
  cases hmem

end OrderLimit
