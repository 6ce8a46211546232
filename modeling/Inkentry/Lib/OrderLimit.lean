/-
  Inkentry.Lib.OrderLimit

  `ORDER BY key LIMIT k` over a list of rows: a stable sort by a key
  (`sortBy`), and its first `k` rows (`orderLimit`).

  Sorting commutes with filtering (`sortBy_filter`), so what a filter leaves of
  a cut is a prefix of the filtered rows in order (`orderLimit_filter`); and a
  cut is closed downwards: a row that sorts before one that is in it is in it
  too (`mem_orderLimit_of_lt`).
-/

import Mathlib.Data.List.Sort

namespace OrderLimit

variable {α κ : Type*} [LinearOrder κ] (key : α → κ)

/-- Stable sort by a key. -/
def sortBy (l : List α) : List α := l.insertionSort fun a b => key a ≤ key b

/-- The first `k` rows in key order. -/
def orderLimit (k : Nat) (l : List α) : List α := (sortBy key l).take k

/-! ## Sorting -/

instance total_key : Std.Total fun a b : α => key a ≤ key b := ⟨fun a b => le_total (key a) (key b)⟩

instance isTrans_key : IsTrans α fun a b => key a ≤ key b := ⟨fun _ _ _ => le_trans⟩

theorem sortBy_perm (l : List α) : (sortBy key l).Perm l := List.perm_insertionSort _ l

@[simp] theorem mem_sortBy {l : List α} {a : α} : a ∈ sortBy key l ↔ a ∈ l :=
  List.mem_insertionSort _

@[simp] theorem length_sortBy (l : List α) : (sortBy key l).length = l.length :=
  List.length_insertionSort _ l

theorem sortBy_pairwise (l : List α) : (sortBy key l).Pairwise fun a b => key a ≤ key b :=
  List.pairwise_insertionSort _ l

/-- In a sorted list a row goes in front of everything it does not exceed. -/
theorem filter_orderedInsert (p : α → Bool) (a : α) {l : List α}
    (hl : l.Pairwise fun a b => key a ≤ key b) :
    (l.orderedInsert (fun a b => key a ≤ key b) a).filter p
      = if p a then (l.filter p).orderedInsert (fun a b => key a ≤ key b) a else l.filter p := by
  induction l with
  | nil => cases hp : p a <;> simp [hp]
  | cons b l ih =>
    obtain ⟨hb, hl'⟩ := List.pairwise_cons.mp hl
    by_cases hab : key a ≤ key b
    · rw [List.orderedInsert_cons, if_pos hab]
      cases hp : p a with
      | false => simp [hp]
      | true =>
        -- everything the filter leaves of `b :: l` is at least `b`
        have hle : ∀ c ∈ (b :: l).filter p, key a ≤ key c := by
          intro c hc
          rcases List.mem_cons.mp (List.mem_filter.mp hc).1 with rfl | hmem
          · exact hab
          · exact hab.trans (hb c hmem)
        rw [List.filter_cons_of_pos hp, if_pos rfl]
        cases hf : (b :: l).filter p with
        | nil => rfl
        | cons c l' =>
          rw [List.orderedInsert_cons, if_pos (hle c (by rw [hf]; exact List.mem_cons_self))]
    · rw [List.orderedInsert_cons, if_neg hab]
      cases hpb : p b with
      | false => simp [hpb, ih hl']
      | true =>
        rw [List.filter_cons_of_pos hpb, List.filter_cons_of_pos hpb, ih hl']
        cases hpa : p a with
        | false => rfl
        | true =>
          rw [if_pos rfl, if_pos rfl, List.orderedInsert_cons, if_neg hab]

theorem sortBy_filter (p : α → Bool) (l : List α) :
    sortBy key (l.filter p) = (sortBy key l).filter p := by
  induction l with
  | nil => rfl
  | cons a l ih =>
    have hsorted := sortBy_pairwise key l
    show _ = ((sortBy key l).orderedInsert _ a).filter p
    rw [filter_orderedInsert key p a hsorted]
    cases hp : p a with
    | true => rw [List.filter_cons_of_pos hp, if_pos rfl]; exact congrArg _ ih
    | false => rw [List.filter_cons_of_neg (by simp [hp])]; exact ih

/-- A stable sort commutes with a map that keeps the order of the keys of the rows. -/
theorem sortBy_map_of_mem {β κ' : Type*} [LinearOrder κ'] {key' : β → κ'} {f : α → β} {l : List α}
    (hkey : ∀ a ∈ l, ∀ b ∈ l, key' (f a) ≤ key' (f b) ↔ key a ≤ key b) :
    sortBy key' (l.map f) = (sortBy key l).map f :=
  (List.map_insertionSort _ _ f l fun a ha b hb => (hkey a ha b hb).symm).symm

theorem sortBy_map {β κ' : Type*} [LinearOrder κ'] {key' : β → κ'} {f : α → β}
    (hkey : ∀ a b, key' (f a) ≤ key' (f b) ↔ key a ≤ key b) (l : List α) :
    sortBy key' (l.map f) = (sortBy key l).map f :=
  sortBy_map_of_mem key fun a _ b _ => hkey a b

theorem sortBy_congr {κ' : Type*} [LinearOrder κ'] {key' : α → κ'} {l : List α}
    (hkey : ∀ a ∈ l, ∀ b ∈ l, key' a ≤ key' b ↔ key a ≤ key b) : sortBy key' l = sortBy key l := by
  have h : sortBy key' (l.map id) = (sortBy key l).map id := sortBy_map_of_mem key hkey
  rwa [List.map_id, List.map_id] at h

/-- The order of a list whose keys are distinct does not matter to a sort. -/
theorem sortBy_eq_of_perm {l l' : List α} (hperm : l.Perm l')
    (hinj : ∀ a ∈ l, ∀ b ∈ l, key a = key b → a = b) : sortBy key l = sortBy key l' := by
  have hsorted : (sortBy key l).Perm (sortBy key l') :=
    ((sortBy_perm key l).trans hperm).trans (sortBy_perm key l').symm
  refine hsorted.eq_of_pairwise ?_ (sortBy_pairwise key l) (sortBy_pairwise key l')
  intro a b ha hb hab hba
  have hb' : b ∈ l := hperm.mem_iff.mpr ((mem_sortBy key).mp hb)
  exact hinj a ((mem_sortBy key).mp ha) b hb' (le_antisymm hab hba)

theorem sortBy_filter_tie (l : List α) (c : κ) :
    ((sortBy key l).filter fun b => key b = c) = l.filter fun b => key b = c := by
  rw [← sortBy_filter]
  refine (List.pairwise_of_forall_mem_list fun a ha b hb => ?_).insertionSort_eq
  rw [of_decide_eq_true (List.mem_filter.mp ha).2, of_decide_eq_true (List.mem_filter.mp hb).2]

theorem takeWhile_ne_filter [DecidableEq α] (p : α → Bool) {b : α} (hb : p b = true) (l : List α) :
    (l.filter p).takeWhile (· ≠ b) = (l.takeWhile (· ≠ b)).filter p := by
  induction l with
  | nil => rfl
  | cons a l ih =>
    by_cases hab : a = b
    · rw [hab, List.filter_cons_of_pos hb]
      simp
    · have hkeep (m : List α) : (a :: m).takeWhile (· ≠ b) = a :: m.takeWhile (· ≠ b) := by
        simp [List.takeWhile_cons, hab]
      rw [hkeep]
      cases hp : p a with
      | true => rw [List.filter_cons_of_pos hp, hkeep, List.filter_cons_of_pos hp, ih]
      | false => rw [List.filter_cons_of_neg (by simp [hp]), List.filter_cons_of_neg (by simp [hp]), ih]

/-- What a stable sort puts before a row: what has a smaller key, and what has the same and came
before. -/
theorem mem_takeWhile_sortBy_iff [DecidableEq α] {l : List α} {a b : α} (ha : a ∈ l) (hb : b ∈ l)
    (hle : key a ≤ key b) : a ∈ (sortBy key l).takeWhile (· ≠ b)
      ↔ key a < key b ∨ key a = key b ∧ a ∈ l.takeWhile (· ≠ b) := by
  rcases hle.lt_or_eq with hlt | heq
  · refine iff_of_true ?_ (.inl hlt)
    have hsplit := List.takeWhile_append_dropWhile (p := fun c => decide (c ≠ b)) (l := sortBy key l)
    have hmem : a ∈ (sortBy key l).takeWhile (· ≠ b) ++ (sortBy key l).dropWhile (· ≠ b) := by
      rw [hsplit]
      exact (mem_sortBy key).mpr ha
    refine (List.mem_append.mp hmem).resolve_right fun hdrop => ?_
    -- the rest begins with `b`, so it holds nothing smaller
    have hne : (sortBy key l).dropWhile (· ≠ b) ≠ [] := List.ne_nil_of_mem hdrop
    have hhead : (sortBy key l).dropWhile (· ≠ b) = b :: ((sortBy key l).dropWhile (· ≠ b)).tail := by
      have hfirst := List.head_dropWhile_not (fun c => decide (c ≠ b)) hne
      rw [← List.cons_head_tail hne]
      simp only [List.tail_cons]
      congr 1
      simpa using hfirst
    have hpair := (sortBy_pairwise key l).sublist (List.dropWhile_sublist fun c => decide (c ≠ b))
    rw [hhead] at hpair hdrop
    rcases List.mem_cons.mp hdrop with rfl | hrest
    · exact hlt.false
    · exact absurd (List.rel_of_pairwise_cons hpair hrest) (not_le.mpr hlt)
  · have hfilter : a ∈ (sortBy key l).takeWhile (· ≠ b)
        ↔ a ∈ ((sortBy key l).filter fun c => key c = key b).takeWhile (· ≠ b) := by
      rw [takeWhile_ne_filter (fun c => decide (key c = key b)) (by simp), List.mem_filter]
      simp [heq]
    have hfilter' : a ∈ l.takeWhile (· ≠ b)
        ↔ a ∈ (l.filter fun c => key c = key b).takeWhile (· ≠ b) := by
      rw [takeWhile_ne_filter (fun c => decide (key c = key b)) (by simp), List.mem_filter]
      simp [heq]
    rw [hfilter, sortBy_filter_tie, ← hfilter']
    simp [heq]

/-! ## Cutting -/

variable {k : Nat}

theorem orderLimit_map {β κ' : Type*} [LinearOrder κ'] {key' : β → κ'} {f : α → β}
    (hkey : ∀ a b, key' (f a) ≤ key' (f b) ↔ key a ≤ key b) (k : Nat) (l : List α) :
    orderLimit key' k (l.map f) = (orderLimit key k l).map f := by
  rw [orderLimit, sortBy_map key hkey, orderLimit, List.map_take]

theorem mem_of_mem_orderLimit {l : List α} {a : α} (h : a ∈ orderLimit key k l) :
    a ∈ l := (mem_sortBy key).mp (List.mem_of_mem_take h)

theorem length_orderLimit (k : Nat) (l : List α) :
    (orderLimit key k l).length = min k l.length := by
  rw [orderLimit, List.length_take, length_sortBy]

theorem orderLimit_pairwise (k : Nat) (l : List α) :
    (orderLimit key k l).Pairwise fun a b => key a ≤ key b :=
  (sortBy_pairwise key l).sublist (List.take_sublist _ _)

theorem mem_orderLimit_of_length_lt {l : List α} {a : α} (hlen : (orderLimit key k l).length < k)
    (ha : a ∈ l) : a ∈ orderLimit key k l := by
  rw [length_orderLimit] at hlen
  have hk : (sortBy key l).length ≤ k := by
    rw [length_sortBy]
    omega
  rw [orderLimit, List.take_of_length_le hk]
  exact (mem_sortBy key).mpr ha

theorem le_of_not_mem_orderLimit {l : List α} {a b : α} (ha : a ∈ orderLimit key k l) (hb : b ∈ l)
    (hout : b ∉ orderLimit key k l) : key a ≤ key b := by
  have hsplit := List.take_append_drop k (sortBy key l)
  have hdrop : b ∈ (sortBy key l).drop k := by
    have hmem : b ∈ (sortBy key l).take k ++ (sortBy key l).drop k := by
      rw [hsplit]
      exact (mem_sortBy key).mpr hb
    exact (List.mem_append.mp hmem).resolve_left hout
  have hpair := sortBy_pairwise key l
  rw [← hsplit, List.pairwise_append] at hpair
  exact hpair.2.2 a ha b hdrop

theorem mem_orderLimit_of_lt {l : List α} {a b : α} (ha : a ∈ orderLimit key k l) (hb : b ∈ l)
    (hlt : key b < key a) : b ∈ orderLimit key k l := by
  by_contra hout
  exact absurd (le_of_not_mem_orderLimit key ha hb hout) (not_le.mpr hlt)

theorem head?_orderLimit (hk : 0 < k) {l : List α} {a : α} (ha : a ∈ l)
    (hleast : ∀ b ∈ l, b ≠ a → key a < key b) : (orderLimit key k l).head? = some a := by
  obtain ⟨b, rest, hsorted⟩ := List.exists_cons_of_ne_nil
    (List.ne_nil_of_mem ((mem_sortBy key).mpr ha))
  have hb : b ∈ l := (mem_sortBy key).mp (hsorted ▸ List.mem_cons_self)
  have hba : b = a := by
    by_contra hne
    have hpair := sortBy_pairwise key l
    have hmem : a ∈ b :: rest := hsorted ▸ (mem_sortBy key).mpr ha
    rw [hsorted] at hpair
    have hle := List.rel_of_pairwise_cons hpair
      ((List.mem_cons.mp hmem).resolve_left (Ne.symm hne))
    exact absurd (hleast b hb hne) (not_lt.mpr hle)
  rw [orderLimit, List.head?_take, if_neg (Nat.pos_iff_ne_zero.mp hk), hsorted, List.head?_cons, hba]

/-- What a filter leaves of a prefix is a prefix of what it leaves of the whole. -/
theorem filter_take (p : α → Bool) (k : Nat) (l : List α) :
    (l.take k).filter p = (l.filter p).take ((l.take k).countP p) := by
  have hsplit := congrArg (List.filter p) (List.take_append_drop k l)
  rw [List.filter_append] at hsplit
  rw [← hsplit, List.countP_eq_length_filter, List.take_left']
  rfl

theorem orderLimit_filter (p : α → Bool) (k : Nat) (l : List α) :
    (orderLimit key k l).filter p
      = orderLimit key ((orderLimit key k l).countP p) (l.filter p) := by
  rw [orderLimit, filter_take, orderLimit, sortBy_filter]

theorem sortBy_eq_self {l : List α} (h : l.Pairwise fun a b => key a ≤ key b) :
    sortBy key l = l := h.insertionSort_eq

/-- What a filter leaves of a cut, in order, is a prefix of what it leaves of the whole. -/
theorem sortBy_filter_orderLimit (p : α → Bool) (k : Nat) (l : List α) :
    sortBy key ((orderLimit key k l).filter p)
      = (sortBy key (l.filter p)).take ((orderLimit key k l).filter p).length := by
  rw [← List.countP_eq_length_filter, sortBy_eq_self]
  · exact orderLimit_filter key p k l
  · exact (orderLimit_pairwise key k l).sublist List.filter_sublist

/-- That prefix is everything exactly when the cut lost nothing the filter keeps. -/
theorem length_filter_orderLimit_eq_iff (p : α → Bool) (k : Nat) {l : List α} (hl : l.Nodup) :
    ((orderLimit key k l).filter p).length = (l.filter p).length
      ↔ ∀ a ∈ l, p a = true → a ∈ orderLimit key k l := by
  have hnodup : (orderLimit key k l).Nodup :=
    ((sortBy_perm key l).nodup_iff.mpr hl).sublist (List.take_sublist _ _)
  have hsub : ((orderLimit key k l).filter p).Subperm (l.filter p) := by
    refine List.subperm_of_subset (hnodup.filter p) fun a ha => ?_
    obtain ⟨hmem, hp⟩ := List.mem_filter.mp ha
    exact List.mem_filter.mpr ⟨mem_of_mem_orderLimit key hmem, hp⟩
  constructor
  · intro hlen a ha hp
    have hperm := hsub.perm_of_length_le (le_of_eq hlen.symm)
    exact (List.mem_filter.mp (hperm.mem_iff.mpr (List.mem_filter.mpr ⟨ha, hp⟩))).1
  · intro hall
    refine Nat.le_antisymm hsub.length_le (List.subperm_of_subset (hl.filter p) ?_).length_le
    intro a ha
    obtain ⟨hmem, hp⟩ := List.mem_filter.mp ha
    exact List.mem_filter.mpr ⟨hall a hmem hp, hp⟩

/-- A cut takes whole groups of rows with one key exactly when no group is still
    incomplete at the `k`th row that the group began before. -/
theorem lt_of_not_mem_orderLimit_iff {l : List α} (hl : l.Nodup) :
    (∀ a ∈ l, a ∉ orderLimit key k l → ∀ b ∈ orderLimit key k l, key b < key a)
      ↔ ∀ a ∈ l, l.countP (fun b => key b ≤ key a) ≤ k ∨ k ≤ l.countP fun b => key b < key a := by
  have hperm := sortBy_perm key l
  have hsplit := List.take_append_drop k (sortBy key l)
  have hsorted := sortBy_pairwise key l
  have hnodup : (sortBy key l).Nodup := hperm.nodup_iff.mpr hl
  have hcount (p : α → Bool) :
      l.countP p = (orderLimit key k l).countP p + ((sortBy key l).drop k).countP p := by
    rw [← hperm.countP_eq, ← hsplit, List.countP_append, orderLimit, hsplit]
  have hlen := length_orderLimit key k l
  rw [← hsplit] at hsorted hnodup
  obtain ⟨-, -, hcross⟩ := List.pairwise_append.mp hsorted
  constructor
  · intro hwhole a ha
    by_contra! hcut
    obtain ⟨hle, hlt⟩ := hcut
    -- a row of `a`'s group, or before it, is left out
    have hshort : (orderLimit key k l).countP (fun b => key b ≤ key a) ≤ k :=
      List.countP_le_length.trans (by omega)
    have hback := hcount fun b => key b ≤ key a
    obtain ⟨b, hb, hba⟩ : ∃ b ∈ (sortBy key l).drop k, decide (key b ≤ key a) = true :=
      List.countP_pos_iff.mp (by omega)
    -- and a row of `a`'s group, or after it, is in
    have hfull : l.countP (fun b => key b ≤ key a) ≤ l.length := List.countP_le_length
    have hfront := hcount fun b => key b < key a
    obtain ⟨c, hc, hca⟩ : ∃ c ∈ orderLimit key k l, ¬ key c < key a := by
      by_contra! hall
      have hall' : (orderLimit key k l).countP (fun b => key b < key a)
          = (orderLimit key k l).length := List.countP_eq_length.mpr (by simpa using hall)
      omega
    have hbl : b ∈ l := (mem_sortBy key).mp (List.mem_of_mem_drop hb)
    have hbout : b ∉ orderLimit key k l := fun h => List.disjoint_of_nodup_append hnodup h hb
    have hcb := hwhole b hbl hbout c hc
    exact hca (hcb.trans_le (by simpa using hba))
  · intro hgroups a ha hout b hb
    have hadrop : a ∈ (sortBy key l).drop k := by
      have hmem := (mem_sortBy key).mpr ha
      rw [← hsplit] at hmem
      exact (List.mem_append.mp hmem).resolve_left hout
    have hlenk : (orderLimit key k l).length = k := by
      have hpos := List.length_pos_of_mem hadrop
      rw [List.length_drop, length_sortBy] at hpos
      omega
    by_contra hge
    have hba : key b = key a := le_antisymm (hcross b hb a hadrop) (not_lt.mp hge)
    rcases hgroups a ha with hle | hlt
    · -- everything in the cut, and `a`, is at or before `a`
      have hall : (orderLimit key k l).countP (fun c => key c ≤ key a)
          = (orderLimit key k l).length :=
        List.countP_eq_length.mpr fun c hc => by simpa using hcross c hc a hadrop
      have hpos : 0 < ((sortBy key l).drop k).countP fun c => key c ≤ key a :=
        List.countP_pos_iff.mpr ⟨a, hadrop, by simp⟩
      have hsum := hcount fun c => key c ≤ key a
      omega
    · -- nothing left out is before `a`, so all of the cut is
      have hnone : ((sortBy key l).drop k).countP (fun c => key c < key a) = 0 := by
        refine List.countP_eq_zero.mpr fun c hc => ?_
        have hbc := hcross b hb c hc
        rw [hba] at hbc
        simpa using hbc
      have hsum := hcount fun c => key c < key a
      have hall : (orderLimit key k l).countP (fun c => key c < key a)
          = (orderLimit key k l).length := by
        have hle : (orderLimit key k l).countP (fun c => key c < key a)
            ≤ (orderLimit key k l).length := List.countP_le_length
        omega
      have hb' := List.countP_eq_length.mp hall b hb
      rw [hba] at hb'
      simp at hb'

/-! ## The next page -/

theorem sortBy_filter_lt_getLast? {l : List α} (hkey : (l.map key).Nodup) {x : α}
    (hx : x ∈ (orderLimit key k l).getLast?) :
    sortBy key (l.filter fun a => key x < key a) = (sortBy key l).drop k := by
  have hsplit := List.take_append_drop k (sortBy key l)
  have hsorted := sortBy_pairwise key l
  have hnodup : ((sortBy key l).map key).Nodup := ((sortBy_perm key l).map key).nodup_iff.mpr hkey
  rw [← hsplit] at hsorted hnodup
  obtain ⟨hfront, -, hcross⟩ := List.pairwise_append.mp hsorted
  have hxmem : x ∈ (sortBy key l).take k := List.mem_of_getLast? hx
  rw [sortBy_filter, ← hsplit, List.filter_append, hsplit]
  -- nothing in the cut is after its last row
  have hnone : ((sortBy key l).take k).filter (fun a => key x < key a) = [] := by
    refine List.filter_eq_nil_iff.mpr fun a ha => ?_
    obtain ⟨init, hinit⟩ := List.getLast?_eq_some_iff.mp hx
    rw [orderLimit] at hinit
    rw [hinit] at ha hfront
    have hle : key a ≤ key x := by
      rcases List.mem_append.mp ha with hmem | hmem
      · exact (List.pairwise_append.mp hfront).2.2 a hmem x List.mem_cons_self
      · rw [List.mem_singleton.mp hmem]
    simpa using hle
  have hall : ((sortBy key l).drop k).filter (fun a => key x < key a) = (sortBy key l).drop k := by
    refine List.filter_eq_self.mpr fun a ha => ?_
    have hne : key x ≠ key a := by
      rw [List.map_append] at hnodup
      intro heq
      exact List.disjoint_of_nodup_append hnodup (List.mem_map_of_mem hxmem)
        (heq ▸ List.mem_map_of_mem ha)
    simpa using lt_of_le_of_ne (hcross x hxmem a ha) hne
  rw [hnone, hall, List.nil_append]

/-! ## Places -/

section Places

variable {key} {l l' : List α}

/-- Where no two rows share a key, a row is in a cut when fewer than `k` rows come
    before it. -/
theorem mem_orderLimit_iff (hkey : (l.map key).Nodup) {k : Nat} {x : α} :
    x ∈ orderLimit key k l ↔ x ∈ l ∧ l.countP (fun a => key a < key x) < k := by
  by_cases hx : x ∈ l
  case neg => exact iff_of_false (fun h => hx (mem_of_mem_orderLimit key h)) fun h => hx h.1
  have hperm := sortBy_perm key l
  have hnodup : ((sortBy key l).map key).Nodup := (hperm.map key).nodup_iff.mpr hkey
  have hsorted := sortBy_pairwise key l
  rw [and_iff_right hx, ← hperm.countP_eq, orderLimit]
  obtain ⟨front, back, hsplit⟩ := List.append_of_mem ((mem_sortBy key).mpr hx)
  rw [hsplit] at hsorted hnodup ⊢
  obtain ⟨-, hback, hfront⟩ := List.pairwise_append.mp hsorted
  -- the rows before `x` are those in front of it
  have hcount : (front ++ x :: back).countP (fun a => key a < key x) = front.length := by
    have hpre : front.countP (fun a => key a < key x) = front.length := by
      refine List.countP_eq_length.mpr fun a ha => ?_
      have hne : key a ≠ key x := by
        rw [List.map_append, List.map_cons] at hnodup
        intro heq
        exact List.disjoint_of_nodup_append hnodup (List.mem_map_of_mem ha)
          (heq ▸ List.mem_cons_self)
      simpa using lt_of_le_of_ne (hfront a ha x List.mem_cons_self) hne
    have hpost : (x :: back).countP (fun a => key a < key x) = 0 := by
      refine List.countP_eq_zero.mpr fun a ha => ?_
      rcases List.mem_cons.mp ha with rfl | hmem
      · simp
      · simpa using (List.pairwise_cons.mp hback).1 a hmem
    rw [List.countP_append, hpre, hpost, Nat.add_zero]
  rw [hcount]
  constructor
  · intro hmem
    by_contra hge
    rw [List.take_append_of_le_length (not_lt.mp hge)] at hmem
    rw [List.map_append, List.map_cons] at hnodup
    exact List.disjoint_of_nodup_append hnodup
      (List.mem_map_of_mem (List.mem_of_mem_take hmem)) List.mem_cons_self
  · intro hlt
    rw [List.take_append, List.mem_append]
    refine .inr ?_
    obtain ⟨m, hm⟩ := Nat.exists_eq_succ_of_ne_zero (Nat.sub_ne_zero_of_lt hlt)
    rw [hm, List.take_succ_cons]
    exact List.mem_cons_self

/-- Rows that are added to a list leave its cut alone exactly when each of them comes
    after `k` that were there. -/
theorem orderLimit_eq_iff_of_sublist (hkey : (l'.map key).Nodup) (hsub : l.Sublist l') {k : Nat} :
    orderLimit key k l = orderLimit key k l'
      ↔ ∀ x ∈ l', x ∉ l → k ≤ l.countP fun a => key a < key x := by
  have hkey' : (l.map key).Nodup := hkey.sublist (hsub.map key)
  have hinj : ∀ a ∈ l', ∀ b ∈ l', key a = key b → a = b := fun a ha b hb =>
    List.inj_on_of_nodup_map hkey ha hb
  constructor
  · intro heq x hx hout
    have hcut : x ∉ orderLimit key k l' := heq ▸ fun h => hout (mem_of_mem_orderLimit key h)
    have hcount : k ≤ l'.countP fun a => key a < key x := by
      by_contra hlt
      exact hcut ((mem_orderLimit_iff hkey).mpr ⟨hx, not_le.mp hlt⟩)
    -- the cut is full, and all of it comes before `x`
    have hlen : (orderLimit key k l).length = k := by
      rw [heq, length_orderLimit]
      have := hcount.trans List.countP_le_length
      omega
    have hbefore : (orderLimit key k l).countP (fun a => key a < key x) = k := by
      rw [List.countP_eq_length.mpr, hlen]
      intro a ha
      have hmem : a ∈ orderLimit key k l' := heq ▸ ha
      have hle := le_of_not_mem_orderLimit key hmem hx hcut
      have hne : key a ≠ key x := fun h =>
        hout (hinj a (mem_of_mem_orderLimit key hmem) x hx h ▸ mem_of_mem_orderLimit key ha)
      simpa using lt_of_le_of_ne hle hne
    calc k = (orderLimit key k l).countP fun a => key a < key x := hbefore.symm
      _ ≤ (sortBy key l).countP fun a => key a < key x := (List.take_sublist _ _).countP_le
      _ = l.countP fun a => key a < key x := (sortBy_perm key l).countP_eq _
  · intro hafter
    have hmem : ∀ x, x ∈ orderLimit key k l ↔ x ∈ orderLimit key k l' := by
      intro x
      rw [mem_orderLimit_iff hkey', mem_orderLimit_iff hkey]
      constructor
      · rintro ⟨hx, hlt⟩
        refine ⟨hsub.subset hx, lt_of_le_of_lt ?_ hlt⟩
        -- what comes before `x` in the longer list was there
        rw [List.countP_eq_length_filter, List.countP_eq_length_filter]
        refine (List.subperm_of_subset ((List.Nodup.of_map key hkey).filter _) ?_).length_le
        intro y hy
        obtain ⟨hyl, hyx⟩ := List.mem_filter.mp hy
        refine List.mem_filter.mpr ⟨?_, hyx⟩
        by_contra hnot
        have hyx : key y < key x := by simpa using hyx
        have hmono : l.countP (fun a => key a < key y) ≤ l.countP fun a => key a < key x := by
          refine List.countP_mono_left fun a _ ha => ?_
          have ha : key a < key y := by simpa using ha
          simpa using ha.trans hyx
        have := hafter y hyl hnot
        omega
      · rintro ⟨hx, hlt⟩
        have hle : l.countP (fun a => key a < key x) ≤ l'.countP fun a => key a < key x :=
          hsub.countP_le
        refine ⟨?_, by omega⟩
        by_contra hnot
        have := hafter x hx hnot
        omega
    have hnodup {m : List α} (hm : (m.map key).Nodup) : (orderLimit key k m).Nodup :=
      (((sortBy_perm key m).nodup_iff).mpr (List.Nodup.of_map key hm)).sublist
        (List.take_sublist _ _)
    refine List.Perm.eq_of_pairwise ?_ (orderLimit_pairwise key k l) (orderLimit_pairwise key k l')
      ((List.perm_ext_iff_of_nodup (hnodup hkey') (hnodup hkey)).mpr hmem)
    intro a b ha hb hab hba
    exact hinj a (hsub.subset (mem_of_mem_orderLimit key ha)) b (mem_of_mem_orderLimit key hb)
      (le_antisymm hab hba)

end Places

end OrderLimit
