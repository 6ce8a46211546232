/-
  Inkentry.Lib.NearestCut

  A k-nearest cut of a pool: `k` of its elements such that none left out is
  nearer than one that is in (`IsNearest`).  Which of several equally near ones
  the cut takes is left open, so one pool can have several.

  A filter that is applied after the cut sees only what the cut left.  The two
  orders agree exactly when the cut lost nothing the filter keeps, or kept
  enough of it to fill the answer all the same (`isNearest_filter_iff`).
-/

import Inkentry.Lib.OrderLimit

namespace NearestCut

open OrderLimit

variable {α β D D' : Type*} [LinearOrder D] [LinearOrder D']

/-- `sel` is a `k`-nearest cut of `pool`. -/
structure IsNearest (d : α → D) (k : Nat) (pool sel : List α) : Prop where
  nodup : sel.Nodup
  subset : ∀ a ∈ sel, a ∈ pool
  length : sel.length = min k pool.length
  le : ∀ a ∈ sel, ∀ b ∈ pool, b ∉ sel → d a ≤ d b

variable {d : α → D} {k m : Nat} {pool sel out : List α} {p : α → Bool}

/-! ## Cuts -/

theorem IsNearest.congr_pool {pool' : List α} (h : IsNearest d k pool sel)
    (hperm : pool.Perm pool') : IsNearest d k pool' sel where
  nodup := h.nodup
  subset a ha := hperm.mem_iff.mp (h.subset a ha)
  length := by rw [h.length, hperm.length_eq]
  le a ha b hb := h.le a ha b (hperm.mem_iff.mpr hb)

theorem isNearest_of_perm (hperm : sel.Perm pool) (hnodup : pool.Nodup) (hk : pool.length ≤ k) :
    IsNearest d k pool sel where
  nodup := hperm.nodup_iff.mpr hnodup
  subset a ha := hperm.mem_iff.mp ha
  length := by
    rw [hperm.length_eq]
    omega
  le _ _ b hb hout := absurd (hperm.mem_iff.mpr hb) hout

theorem isNearest_orderLimit {κ : Type*} [LinearOrder κ] {key : α → κ}
    (hkey : ∀ a b, key a ≤ key b → d a ≤ d b) (k : Nat) (hnodup : pool.Nodup) :
    IsNearest d k pool (orderLimit key k pool) where
  nodup := ((sortBy_perm key pool).nodup_iff.mpr hnodup).sublist (List.take_sublist _ _)
  subset _ ha := mem_of_mem_orderLimit key ha
  length := length_orderLimit key k pool
  le a ha b hb hout := hkey a b (le_of_not_mem_orderLimit key ha hb hout)

theorem IsNearest.mem_of_length_lt (h : IsNearest d k pool sel) (hlen : sel.length < k) {a : α}
    (ha : a ∈ pool) : a ∈ sel := by
  have hall : pool.length ≤ sel.length := by
    have := h.length
    omega
  exact ((List.subperm_of_subset h.nodup h.subset).perm_of_length_le hall).mem_iff.mpr ha

theorem IsNearest.exists_mem (h : IsNearest d k pool sel) (hk : 0 < k) {b : α} (hb : b ∈ pool) :
    ∃ a, a ∈ sel := by
  have hpos : 0 < pool.length := List.length_pos_of_mem hb
  have hlen := h.length
  exact List.exists_mem_of_length_pos (by omega)

theorem IsNearest.eq_of_mem_one {a b : α} (h : IsNearest d 1 pool sel) (ha : a ∈ sel)
    (hb : b ∈ sel) : a = b := by
  have hlen := h.length
  have hpos : 0 < sel.length := List.length_pos_of_mem ha
  obtain ⟨c, rfl⟩ := List.length_eq_one_iff.mp (show sel.length = 1 by omega)
  rw [List.mem_singleton.mp ha, List.mem_singleton.mp hb]

theorem IsNearest.le_of_mem_one {a b : α} (h : IsNearest d 1 pool sel) (ha : a ∈ sel)
    (hb : b ∈ pool) : d a ≤ d b := by
  by_cases hmem : b ∈ sel
  · rw [h.eq_of_mem_one ha hmem]
  · exact h.le a ha b hb hmem

/-! ## Cuts through a map -/

/-- A partial map that is total and injective on the pool carries cuts over. -/
theorem IsNearest.filterMap {d' : β → D} {f : α → Option β} (h : IsNearest d k pool sel)
    (hsome : ∀ a ∈ pool, (f a).isSome) (hinj : ∀ a a' b, f a = some b → f a' = some b → a = a')
    (hd : ∀ a b, f a = some b → d' b = d a) :
    IsNearest d' k (pool.filterMap f) (sel.filterMap f) := by
  have hlen {l : List α} (hl : ∀ a ∈ l, (f a).isSome) : (l.filterMap f).length = l.length := by
    induction l with
    | nil => rfl
    | cons a l ih =>
      obtain ⟨b, hb⟩ := Option.isSome_iff_exists.mp (hl a List.mem_cons_self)
      rw [List.filterMap_cons_some hb, List.length_cons, List.length_cons,
        ih fun c hc => hl c (List.mem_cons_of_mem a hc)]
  refine ⟨h.nodup.filterMap fun a a' b hb hb' => hinj a a' b hb hb', ?_, ?_, ?_⟩
  · intro b hb
    obtain ⟨a, ha, hab⟩ := List.mem_filterMap.mp hb
    exact List.mem_filterMap.mpr ⟨a, h.subset a ha, hab⟩
  · rw [hlen hsome, hlen fun a ha => hsome a (h.subset a ha), h.length]
  · intro b hb c hc hout
    obtain ⟨a, ha, hab⟩ := List.mem_filterMap.mp hb
    obtain ⟨e, he, hec⟩ := List.mem_filterMap.mp hc
    have hesel : e ∉ sel := fun hmem => hout (List.mem_filterMap.mpr ⟨e, hmem, hec⟩)
    rw [hd a b hab, hd e c hec]
    exact h.le a ha e he hesel

/-- A map that is injective on the pool and keeps the order of distances keeps and
    reflects cuts. -/
theorem isNearest_map_iff {d' : β → D'} {f : α → β}
    (hf : ∀ a ∈ pool, ∀ b ∈ pool, f a = f b → a = b) (hsub : ∀ a ∈ sel, a ∈ pool)
    (hd : ∀ a b, d' (f a) ≤ d' (f b) ↔ d a ≤ d b) :
    IsNearest d' k (pool.map f) (sel.map f) ↔ IsNearest d k pool sel := by
  -- an element of the pool whose image was taken was taken itself
  have hback {b : α} (hb : b ∈ pool) (hmem : f b ∈ sel.map f) : b ∈ sel := by
    obtain ⟨a, ha, hab⟩ := List.mem_map.mp hmem
    rw [← hf a (hsub a ha) b hb hab]
    exact ha
  constructor
  · intro h
    refine ⟨List.Nodup.of_map f h.nodup, hsub, ?_, ?_⟩
    · have hlen := h.length
      rwa [List.length_map, List.length_map] at hlen
    · intro a ha b hb hout
      exact (hd a b).mp (h.le _ (List.mem_map_of_mem ha) _ (List.mem_map_of_mem hb)
        fun hmem => hout (hback hb hmem))
  · intro h
    refine ⟨h.nodup.map_on fun a ha b hb => hf a (hsub a ha) b (hsub b hb), ?_, ?_, ?_⟩
    · intro b hb
      obtain ⟨a, ha, rfl⟩ := List.mem_map.mp hb
      exact List.mem_map_of_mem (h.subset a ha)
    · rw [List.length_map, List.length_map]
      exact h.length
    · intro b hb c hc hout
      obtain ⟨a, ha, rfl⟩ := List.mem_map.mp hb
      obtain ⟨e, he, rfl⟩ := List.mem_map.mp hc
      exact (hd a e).mpr (h.le a ha e he fun hmem => hout (List.mem_map_of_mem hmem))

/-! ## Filtering after the cut -/

/-- What a filter leaves of a cut is among what it leaves of the pool. -/
theorem IsNearest.filter_subperm (h : IsNearest d k pool sel) :
    (sel.filter p).Subperm (pool.filter p) := by
  refine List.subperm_of_subset (h.nodup.filter p) fun a ha => ?_
  obtain ⟨hmem, hp⟩ := List.mem_filter.mp ha
  exact List.mem_filter.mpr ⟨h.subset a hmem, hp⟩

/-- The `m` nearest of what a filter leaves of a cut are the `m` nearest of what it
    leaves of the pool exactly when the cut lost nothing the filter keeps, or
    kept `m` of it. -/
theorem isNearest_filter_iff (hpool : pool.Nodup) (hsel : IsNearest d k pool sel)
    (hout : IsNearest d m (sel.filter p) out) :
    IsNearest d m (pool.filter p) out
      ↔ (∀ a ∈ pool, p a = true → a ∈ sel) ∨ m ≤ (sel.filter p).length := by
  constructor
  · intro h
    by_cases hm : m ≤ (sel.filter p).length
    · exact .inr hm
    · refine .inl fun a ha hp => ?_
      -- the answer is short, so it is all that the pool has to offer
      have hshort : out.length < m := by
        have := hout.length
        omega
      have hmem := h.mem_of_length_lt hshort (List.mem_filter.mpr ⟨ha, hp⟩)
      exact (List.mem_filter.mp (hout.subset a hmem)).1
  · rintro (hall | hm)
    · have hback : (pool.filter p).Subperm (sel.filter p) := by
        refine List.subperm_of_subset (hpool.filter p) fun a ha => ?_
        obtain ⟨hmem, hp⟩ := List.mem_filter.mp ha
        exact List.mem_filter.mpr ⟨hall a hmem hp, hp⟩
      exact hout.congr_pool (hsel.filter_subperm.antisymm hback)
    · have hle := hsel.filter_subperm (p := p).length_le
      refine ⟨hout.nodup, fun a ha => hsel.filter_subperm.subset (hout.subset a ha), ?_, ?_⟩
      · rw [hout.length]
        omega
      · intro a ha b hb hnot
        by_cases hbsel : b ∈ sel
        · exact hout.le a ha b (List.mem_filter.mpr ⟨hbsel, (List.mem_filter.mp hb).2⟩) hnot
        · exact hsel.le a (List.mem_filter.mp (hout.subset a ha)).1 b (List.mem_filter.mp hb).1
            hbsel

/-- The case of a filter that is asked for as many as the cut: the cut kept
    everything the filter keeps, or nothing else. -/
theorem isNearest_filter_iff_of_perm (hpool : pool.Nodup) (hsel : IsNearest d k pool sel)
    (hperm : out.Perm (sel.filter p)) :
    IsNearest d k (pool.filter p) out
      ↔ (∀ a ∈ pool, p a = true → a ∈ sel) ∨ ∀ a ∈ sel, p a = true := by
  have hle : (sel.filter p).length ≤ sel.length := List.length_filter_le p sel
  have hk : sel.length ≤ k := by
    have := hsel.length
    omega
  rw [isNearest_filter_iff hpool hsel
    (isNearest_of_perm hperm (hsel.nodup.filter p) (hle.trans hk))]
  constructor
  · rintro (hall | hm)
    · exact .inl hall
    · refine .inr (List.length_filter_eq_length_iff.mp ?_)
      omega
  · rintro (hall | hkept)
    · exact .inl hall
    · rw [List.filter_eq_self.mpr hkept]
      by_cases hfull : k ≤ sel.length
      · exact .inr hfull
      · exact .inl fun a ha _ => hsel.mem_of_length_lt (by omega) ha

end NearestCut
