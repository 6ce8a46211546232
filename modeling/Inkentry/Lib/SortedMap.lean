/-
  Inkentry.Lib.SortedMap

  A map kept as the list of its entries in key order, one entry a key.
-/

import Mathlib.Order.Lattice
import Mathlib.Data.List.Basic

namespace SortedMap

variable {κ ν : Type*} [LinearOrder κ]

/-! ## Entries in key order -/

variable {entries : List (κ × ν)}

/-- Puts an entry in its place, over the one that has the key. -/
def insertEntry (k : κ) (v : ν) : List (κ × ν) → List (κ × ν)
  | [] => [(k, v)]
  | entry :: entries =>
    if k < entry.1 then (k, v) :: entry :: entries
    else if k = entry.1 then (k, v) :: entries
    else entry :: insertEntry k v entries

theorem mem_insertEntry {k : κ} {v : ν} {p : κ × ν}
    (h : p ∈ insertEntry k v entries) : p = (k, v) ∨ p ∈ entries := by
  induction entries with
  | nil => exact .inl (List.mem_singleton.mp h)
  | cons entry entries ih =>
    rw [insertEntry] at h
    split at h
    · exact (List.mem_cons.mp h).imp_right id
    · split at h
      · exact (List.mem_cons.mp h).imp_right (List.mem_cons_of_mem _)
      · rcases List.mem_cons.mp h with rfl | hmem
        · exact .inr List.mem_cons_self
        · exact (ih hmem).imp_right (List.mem_cons_of_mem _)

theorem insertEntry_pairwise (k : κ) (v : ν) (h : entries.Pairwise fun p q => p.1 < q.1) :
    (insertEntry k v entries).Pairwise fun p q => p.1 < q.1 := by
  induction entries with
  | nil => exact List.pairwise_singleton _ _
  | cons entry entries ih =>
    obtain ⟨hentry, hrest⟩ := List.pairwise_cons.mp h
    rw [insertEntry]
    split
    case isTrue hlt =>
      refine List.pairwise_cons.mpr ⟨fun p hp => ?_, h⟩
      rcases List.mem_cons.mp hp with rfl | hmem
      · exact hlt
      · exact hlt.trans (hentry p hmem)
    case isFalse hlt =>
      split
      case isTrue heq =>
        refine List.pairwise_cons.mpr ⟨fun p hp => ?_, hrest⟩
        rw [heq]
        exact hentry p hp
      case isFalse hne =>
        refine List.pairwise_cons.mpr ⟨fun p hp => ?_, ih hrest⟩
        rcases mem_insertEntry hp with rfl | hmem
        · exact lt_of_le_of_ne (not_lt.mp hlt) (Ne.symm hne)
        · exact hentry p hmem

end SortedMap

/-- A finite map, its entries in key order. -/
structure SortedMap (κ ν : Type*) [LinearOrder κ] where
  entries : List (κ × ν)
  sorted : entries.Pairwise fun p q => p.1 < q.1

namespace SortedMap

variable {κ ν : Type*} [LinearOrder κ]

instance [DecidableEq ν] : DecidableEq (SortedMap κ ν) := fun m m' =>
  decidable_of_iff (m.entries = m'.entries) <| by
    cases m
    cases m'
    simp

def empty : SortedMap κ ν := ⟨[], List.Pairwise.nil⟩

def get (m : SortedMap κ ν) (k : κ) : Option ν := (m.entries.find? fun p => p.1 = k).map Prod.snd

def keys (m : SortedMap κ ν) : List κ := m.entries.map Prod.fst

def insert (m : SortedMap κ ν) (k : κ) (v : ν) : SortedMap κ ν :=
  ⟨insertEntry k v m.entries, insertEntry_pairwise k v m.sorted⟩

def remove (m : SortedMap κ ν) (k : κ) : SortedMap κ ν :=
  ⟨m.entries.filter fun p => p.1 ≠ k, m.sorted.filter _⟩

/-! ## Lookups -/

variable {m : SortedMap κ ν}
variable {k : κ}

theorem get_eq_none_iff : m.get k = none ↔ k ∉ m.keys := by
  simp only [get, keys, Option.map_eq_none_iff, List.find?_eq_none, List.mem_map, not_exists,
    not_and, decide_eq_true_eq]

@[simp] theorem get_empty (k : κ) : (empty : SortedMap κ ν).get k = none := rfl

theorem get_insert_of_ne (m : SortedMap κ ν) {k k' : κ} (v : ν) (hne : k' ≠ k) :
    (m.insert k v).get k' = m.get k' := by
  have hfind : ∀ entries : List (κ × ν), (insertEntry k v entries).find? (fun p => p.1 = k')
      = entries.find? fun p => p.1 = k' := by
    intro entries
    induction entries with
    | nil => simp [insertEntry, Ne.symm hne]
    | cons entry entries ih =>
      rw [insertEntry]
      split
      · simp [Ne.symm hne]
      · split
        case isTrue heq => simp [Ne.symm hne, ← heq]
        case isFalse => rw [List.find?_cons, List.find?_cons, ih]
  rw [get, get]
  exact congrArg (Option.map Prod.snd) (hfind m.entries)

theorem get_insert_self (m : SortedMap κ ν) (k : κ) (v : ν) : (m.insert k v).get k = some v := by
  have hfind : ∀ entries : List (κ × ν),
      (insertEntry k v entries).find? (fun p => p.1 = k) = some (k, v) := by
    intro entries
    induction entries with
    | nil => simp [insertEntry]
    | cons entry entries ih =>
      rw [insertEntry]
      split
      case isTrue => simp
      case isFalse =>
        split
        case isTrue => simp
        case isFalse hne =>
          rw [List.find?_cons_of_neg (by simpa using Ne.symm hne)]
          exact ih
  rw [get, insert, hfind, Option.map_some]

theorem get_remove_self (m : SortedMap κ ν) (k : κ) : (m.remove k).get k = none := by
  rw [get_eq_none_iff, keys, remove]
  simp

theorem get_eq_some_iff {v : ν} : m.get k = some v ↔ (k, v) ∈ m.entries := by
  rw [get, Option.map_eq_some_iff]
  constructor
  · rintro ⟨⟨k', v'⟩, hfind, rfl⟩
    obtain rfl : k' = k := by simpa using List.find?_some hfind
    exact List.mem_of_find?_eq_some hfind
  · intro hmem
    obtain ⟨before, after, hsplit⟩ := List.append_of_mem hmem
    refine ⟨(k, v), List.find?_eq_some_iff_append.mpr ⟨by simp, before, after, hsplit, ?_⟩, rfl⟩
    intro p hp
    have hsorted := m.sorted
    rw [hsplit] at hsorted
    have hlt := (List.pairwise_append.mp hsorted).2.2 p hp (k, v) List.mem_cons_self
    simpa using hlt.ne

theorem find?_eq_some_of_least {q : κ × ν → Bool} {e : κ × ν} (hmem : e ∈ m.entries) (hq : q e)
    (hleast : ∀ p ∈ m.entries, q p → p = e ∨ e.1 < p.1) : m.entries.find? q = some e := by
  obtain ⟨before, after, hsplit⟩ := List.append_of_mem hmem
  refine List.find?_eq_some_iff_append.mpr ⟨hq, before, after, hsplit, fun p hp => ?_⟩
  have hsorted := m.sorted
  rw [hsplit] at hsorted
  have hlt : p.1 < e.1 := (List.pairwise_append.mp hsorted).2.2 p hp e List.mem_cons_self
  by_contra hqp
  rcases hleast p (by rw [hsplit]; exact List.mem_append_left _ hp) (by simpa using hqp) with heq | hgt
  · exact (heq ▸ hlt).false
  · exact lt_asymm hlt hgt

theorem get_remove_of_ne (m : SortedMap κ ν) {k k' : κ} (hne : k' ≠ k) :
    (m.remove k).get k' = m.get k' := by
  rw [get, get, remove, List.find?_filter]
  refine congrArg (Option.map Prod.snd) (congrArg (List.find? · m.entries) (funext fun p => ?_))
  by_cases hp : p.1 = k'
  · simp [hp, hne]
  · simp [hp]

theorem get_remove_eq_none {k' : κ} (k : κ) (h : m.get k' = none) : (m.remove k).get k' = none := by
  rw [get_eq_none_iff] at h ⊢
  intro hmem
  obtain ⟨p, hp, rfl⟩ := List.mem_map.mp hmem
  exact h (List.mem_map_of_mem (List.mem_of_mem_filter hp))

/-! ## The entries that pass a test -/

def retain (m : SortedMap κ ν) (p : ν → Bool) : SortedMap κ ν :=
  ⟨m.entries.filter fun e => p e.2, m.sorted.filter _⟩

theorem get_retain (m : SortedMap κ ν) (p : ν → Bool) (k : κ) :
    (m.retain p).get k = (m.get k).filter p := by
  refine Option.ext fun v => ?_
  rw [get_eq_some_iff, Option.filter_eq_some_iff, get_eq_some_iff, retain, List.mem_filter]

theorem length_retain_le (m : SortedMap κ ν) (p : ν → Bool) :
    (m.retain p).entries.length ≤ m.entries.length := List.length_filter_le _ _

theorem length_retain_lt {p : ν → Bool} {v : ν} (hget : m.get k = some v)
    (hp : p v = false) : (m.retain p).entries.length < m.entries.length := by
  rw [retain]
  exact List.length_filter_lt_length_iff_exists.mpr
    ⟨(k, v), get_eq_some_iff.mp hget, by simp [hp]⟩

/-! ## Equality and size -/

theorem ext_get {m m' : SortedMap κ ν} (h : ∀ k, m.get k = m'.get k) : m = m' := by
  have hmem : ∀ e : κ × ν, e ∈ m.entries ↔ e ∈ m'.entries := fun ⟨k, v⟩ => by
    rw [← get_eq_some_iff, ← get_eq_some_iff, h k]
  have hnodup : ∀ m : SortedMap κ ν, m.entries.Nodup := fun m =>
    m.sorted.imp fun hlt heq => (heq ▸ hlt).false
  have hperm : m.entries.Perm m'.entries := (List.perm_ext_iff_of_nodup (hnodup m) (hnodup m')).mpr hmem
  have heq : m.entries = m'.entries :=
    hperm.eq_of_pairwise (fun _ _ _ _ hab hba => absurd hba (not_lt_of_gt hab)) m.sorted m'.sorted
  cases m
  cases m'
  cases heq
  rfl

theorem nodup_keys (m : SortedMap κ ν) : m.keys.Nodup :=
  List.pairwise_map.mpr (m.sorted.imp fun hlt => hlt.ne)

theorem length_insert_le (m : SortedMap κ ν) (k : κ) (v : ν) :
    (m.insert k v).entries.length ≤ m.entries.length + 1 := by
  have hlen : ∀ entries : List (κ × ν), (insertEntry k v entries).length ≤ entries.length + 1 := by
    intro entries
    induction entries with
    | nil => exact Nat.le_refl _
    | cons entry entries ih =>
      rw [insertEntry]
      split
      · exact Nat.le_refl _
      · split
        · simp
        · simpa using ih
  exact hlen m.entries

theorem length_insert_of_some {w : ν} (v : ν) (h : m.get k = some w) :
    (m.insert k v).entries.length = m.entries.length := by
  have hlen : ∀ entries : List (κ × ν), entries.Pairwise (fun p q => p.1 < q.1) →
      k ∈ entries.map Prod.fst → (insertEntry k v entries).length = entries.length := by
    intro entries hsorted hk
    induction entries with
    | nil => cases hk
    | cons entry entries ih =>
      obtain ⟨hentry, hrest⟩ := List.pairwise_cons.mp hsorted
      rw [insertEntry]
      rcases List.mem_cons.mp hk with rfl | hk
      · rw [if_neg (lt_irrefl _), if_pos rfl]
        rfl
      · obtain ⟨p, hp, rfl⟩ := List.mem_map.mp hk
        have hlt := hentry p hp
        rw [if_neg (not_lt_of_gt hlt), if_neg hlt.ne', List.length_cons,
          ih hrest (List.mem_map_of_mem hp), List.length_cons]
  refine hlen m.entries m.sorted ?_
  by_contra hk
  rw [get_eq_none_iff.mpr hk] at h
  cases h

theorem length_remove_of_some {v : ν} (h : m.get k = some v) :
    (m.remove k).entries.length < m.entries.length := by
  rw [remove]
  exact List.length_filter_lt_length_iff_exists.mpr ⟨(k, v), get_eq_some_iff.mp h, by simp⟩

end SortedMap
