/-
  Inkentry.Lib.KeyedStamp

  Dropping repeats from a list of records that have a key and may have a stamp:
  one record is kept per key, at the place of the first, with the first stamp
  that any record of the key has (`collapse`).

  The result is characterised by membership (`mem_collapse`), so two lists
  collapse to the same records exactly when they have the same keys and the same
  first stamps; and where the stamps of a key agree, order does not matter
  (`firstStamp_eq_some_iff`).
-/

import Mathlib.Data.List.Induction
import Mathlib.Data.List.Nodup

namespace KeyedStamp

/-- A record is its key and its stamp. -/
structure View (α κ τ : Type*) where
  key : α → κ
  stamp : α → Option τ
  withStamp : α → Option τ → α
  key_withStamp : ∀ a t, key (withStamp a t) = key a
  stamp_withStamp : ∀ a t, stamp (withStamp a t) = t
  ext : ∀ a b, key a = key b → stamp a = stamp b → a = b

attribute [simp] View.key_withStamp View.stamp_withStamp

variable {α κ τ : Type*} [DecidableEq κ] (v : View α κ τ)

/-- Adds a record, or fills in the stamp of the one with its key. -/
def add (out : List α) (x : α) : List α :=
  if v.key x ∈ out.map v.key then
    out.map fun y => if v.key y = v.key x then v.withStamp y ((v.stamp y).or (v.stamp x)) else y
  else out ++ [x]

/-- One record per key. -/
def collapse (l : List α) : List α := l.foldl (add v) []

/-- The first stamp any record of a key has. -/
def firstStamp (l : List α) (k : κ) : Option τ := (l.filter fun x => v.key x = k).findSome? v.stamp

theorem collapse_concat (l : List α) (x : α) :
    collapse v (l ++ [x]) = add v (collapse v l) x := by
  rw [collapse, List.foldl_append, List.foldl_cons, List.foldl_nil, ← collapse]

/-! ## What is kept -/

variable {l : List α}
variable {k : κ}

theorem firstStamp_concat (l : List α) (x : α) (k : κ) :
    firstStamp v (l ++ [x]) k
      = if v.key x = k then (firstStamp v l k).or (v.stamp x) else firstStamp v l k := by
  rw [firstStamp, List.filter_append, List.findSome?_append, firstStamp]
  by_cases hk : v.key x = k <;> simp [hk]

theorem firstStamp_of_not_mem (h : k ∉ l.map v.key) : firstStamp v l k = none := by
  rw [firstStamp, List.filter_eq_nil_iff.mpr, List.findSome?_nil]
  intro x hx
  simp only [decide_eq_true_eq]
  exact fun hk => h (hk ▸ List.mem_map_of_mem hx)

/-- What the list of kept records is, for some records seen so far. -/
structure Kept (l out : List α) : Prop where
  nodup : (out.map v.key).Nodup
  mem_iff : ∀ y, y ∈ out ↔ v.key y ∈ l.map v.key ∧ v.stamp y = firstStamp v l (v.key y)

variable {v}

theorem Kept.mem_keys {l out : List α} (h : Kept v l out) (k : κ) :
    k ∈ out.map v.key ↔ k ∈ l.map v.key := by
  constructor
  · intro hk
    obtain ⟨y, hy, rfl⟩ := List.mem_map.mp hk
    exact ((h.mem_iff y).mp hy).1
  · intro hk
    obtain ⟨x, -, rfl⟩ := List.mem_map.mp hk
    refine List.mem_map.mpr ⟨v.withStamp x (firstStamp v l (v.key x)), (h.mem_iff _).mpr ?_, ?_⟩
    · simpa using hk
    · simp

theorem Kept.add {l out : List α} (h : Kept v l out) (x : α) :
    Kept v (l ++ [x]) (add v out x) := by
  rw [KeyedStamp.add]
  split
  case isTrue hx =>
    -- the key is there: its row may get the stamp it lacks
    have hkeys : (out.map fun y => if v.key y = v.key x then
        v.withStamp y ((v.stamp y).or (v.stamp x)) else y).map v.key = out.map v.key := by
      rw [List.map_map]
      refine List.map_congr_left fun y _ => ?_
      by_cases hy : v.key y = v.key x <;> simp [hy]
    refine ⟨hkeys ▸ h.nodup, fun y => ⟨fun hy => ?_, fun ⟨hkey, hstamp⟩ => ?_⟩⟩
    · have hykey : v.key y ∈ out.map v.key := hkeys ▸ List.mem_map_of_mem hy
      obtain ⟨z, hz, rfl⟩ := List.mem_map.mp hy
      refine ⟨?_, ?_⟩
      · rw [List.map_append, List.mem_append]
        exact .inl ((h.mem_keys _).mp hykey)
      · rw [firstStamp_concat]
        by_cases hzx : v.key z = v.key x
        · simp [hzx, ((h.mem_iff z).mp hz).2]
        · simp [hzx, Ne.symm hzx, ((h.mem_iff z).mp hz).2]
    · have hold : v.key y ∈ l.map v.key := by
        rw [List.map_append, List.mem_append, List.map_singleton, List.mem_singleton] at hkey
        rcases hkey with hold | hnew
        · exact hold
        · exact hnew ▸ (h.mem_keys _).mp hx
      rw [firstStamp_concat] at hstamp
      refine List.mem_map.mpr ⟨v.withStamp y (firstStamp v l (v.key y)), (h.mem_iff _).mpr ?_, ?_⟩
      · simpa using hold
      · by_cases hyx : v.key y = v.key x
        · rw [if_pos hyx.symm] at hstamp
          rw [v.key_withStamp, if_pos hyx, v.stamp_withStamp]
          exact v.ext _ _ (by simp) (by rw [v.stamp_withStamp, hstamp, hyx])
        · rw [if_neg (Ne.symm hyx)] at hstamp
          rw [v.key_withStamp, if_neg hyx]
          exact v.ext _ _ (by simp) (by simp [hstamp])
  case isFalse hx =>
    -- a new key, whose first stamp is the one it comes with
    have hnew : v.key x ∉ l.map v.key := fun hmem => hx ((h.mem_keys _).mpr hmem)
    refine ⟨?_, fun y => ?_⟩
    · rw [List.map_append, List.map_singleton]
      exact h.nodup.append (List.nodup_singleton _) (by simpa using hx)
    · rw [List.mem_append, List.mem_singleton, h.mem_iff, List.map_append, List.mem_append,
        List.map_singleton, List.mem_singleton, firstStamp_concat]
      by_cases hyx : v.key y = v.key x
      · rw [if_pos hyx.symm, hyx, firstStamp_of_not_mem v hnew, Option.none_or]
        constructor
        · rintro (⟨hold, -⟩ | rfl)
          · exact absurd hold hnew
          · exact ⟨.inr rfl, rfl⟩
        · exact fun ⟨_, hstamp⟩ => .inr (v.ext _ _ hyx hstamp)
      · rw [if_neg (Ne.symm hyx)]
        constructor
        · rintro (⟨hold, hstamp⟩ | rfl)
          · exact ⟨.inl hold, hstamp⟩
          · exact absurd rfl hyx
        · rintro ⟨hold | hsame, hstamp⟩
          · exact .inl ⟨hold, hstamp⟩
          · exact absurd hsame hyx

theorem kept_collapse (l : List α) : Kept v l (collapse v l) := by
  induction l using List.reverseRecOn with
  | nil => exact ⟨List.nodup_nil, by simp [collapse]⟩
  | append_singleton l x ih =>
    rw [collapse_concat]
    exact ih.add x

theorem mem_collapse {y : α} :
    y ∈ collapse v l ↔ v.key y ∈ l.map v.key ∧ v.stamp y = firstStamp v l (v.key y) :=
  (kept_collapse l).mem_iff y

theorem collapse_keys_nodup (l : List α) : ((collapse v l).map v.key).Nodup :=
  (kept_collapse l).nodup

/-- What holds of the key of some record holds of the key of some kept record. -/
theorem exists_mem_collapse_iff {p : κ → Prop} :
    (∃ x ∈ collapse v l, p (v.key x)) ↔ ∃ x ∈ l, p (v.key x) := by
  constructor
  · rintro ⟨x, hx, hp⟩
    obtain ⟨y, hy, hkey⟩ := List.mem_map.mp (mem_collapse.mp hx).1
    exact ⟨y, hy, hkey ▸ hp⟩
  · rintro ⟨y, hy, hp⟩
    obtain ⟨x, hx, hkey⟩ :=
      List.mem_map.mp (((kept_collapse (v := v) l).mem_keys _).mpr (List.mem_map_of_mem hy))
    exact ⟨x, hx, hkey ▸ hp⟩

/-! ## Where order does not matter -/

theorem exists_of_firstStamp {t : τ} (h : firstStamp v l k = some t) :
    ∃ x ∈ l, v.key x = k ∧ v.stamp x = some t := by
  obtain ⟨x, hx, hstamp⟩ := List.exists_of_findSome?_eq_some h
  obtain ⟨hmem, hkey⟩ := List.mem_filter.mp hx
  exact ⟨x, hmem, by simpa using hkey, hstamp⟩

theorem firstStamp_isSome {x : α} (hx : x ∈ l) (hkey : v.key x = k)
    (hstamp : (v.stamp x).isSome) : (firstStamp v l k).isSome := by
  rw [firstStamp, List.findSome?_isSome_iff]
  exact ⟨x, List.mem_filter.mpr ⟨hx, by simpa using hkey⟩, hstamp⟩

theorem exists_of_stamp_collapse {x : α} (hx : x ∈ collapse v l) {t : τ}
    (h : v.stamp x = some t) : ∃ y ∈ l, v.key y = v.key x ∧ v.stamp y = some t :=
  exists_of_firstStamp ((mem_collapse.mp hx).2.symm.trans h)

theorem stamp_collapse_isSome {x y : α} (hx : x ∈ collapse v l) (hy : y ∈ l)
    (hkey : v.key y = v.key x) (hstamp : (v.stamp y).isSome) : (v.stamp x).isSome := by
  rw [(mem_collapse.mp hx).2]
  exact firstStamp_isSome hy hkey hstamp

/-- Where the records of a key agree on their stamps, the first stamp is any of them. -/
theorem firstStamp_eq_some_iff
    (hagree : ∀ x ∈ l, ∀ y ∈ l, v.key x = k → v.key y = k → ∀ s t, v.stamp x = some s → v.stamp y = some t → s = t)
    (t : τ) : firstStamp v l k = some t ↔ ∃ x ∈ l, v.key x = k ∧ v.stamp x = some t := by
  refine ⟨exists_of_firstStamp, ?_⟩
  rintro ⟨x, hx, hkey, hstamp⟩
  obtain ⟨s, hs⟩ := Option.isSome_iff_exists.mp (firstStamp_isSome hx hkey (by simp [hstamp]))
  obtain ⟨y, hy, hykey, hystamp⟩ := exists_of_firstStamp hs
  rw [hs, hagree y hy x hx hykey hkey s t hystamp hstamp]

theorem collapse_cons_of_stamped {x : α} {t : τ} (h : v.stamp x = some t) (l : List α) :
    ∃ rest, collapse v (x :: l) = x :: rest := by
  have hfold (out : List α) : ∃ rest, l.foldl (add v) (x :: out) = x :: rest := by
    induction l generalizing out with
    | nil => exact ⟨out, rfl⟩
    | cons y l ih =>
      rw [List.foldl_cons, add]
      split
      · rw [List.map_cons]
        have hx : (if v.key x = v.key y then v.withStamp x ((v.stamp x).or (v.stamp y)) else x)
            = x := by
          split
          · exact v.ext _ _ (by simp) (by simp [h])
          · rfl
        rw [hx]
        exact ih _
      · exact ih _
  exact hfold []

/-! ## Renaming keys -/

/-- Collapsing commutes with a map that keeps stamps and tells the keys apart. -/
theorem collapse_map {β κ' : Type*} [DecidableEq κ'] {v' : View β κ' τ} {f : α → β} {l : List α}
    (hkey : ∀ x ∈ l, ∀ y ∈ l, v'.key (f x) = v'.key (f y) ↔ v.key x = v.key y)
    (hstamp : ∀ x, v'.stamp (f x) = v.stamp x)
    (hwith : ∀ x t, f (v.withStamp x t) = v'.withStamp (f x) t) :
    collapse v' (l.map f) = (collapse v l).map f := by
  induction l using List.reverseRecOn with
  | nil => rfl
  | append_singleton l x ih =>
    have hold : ∀ y ∈ collapse v l, v'.key (f y) = v'.key (f x) ↔ v.key y = v.key x := by
      intro y hy
      obtain ⟨hmem, hy'⟩ := mem_collapse.mp hy
      obtain ⟨z, hz, hzy⟩ := List.mem_map.mp hmem
      -- `y` is `z` with another stamp
      have hyz : y = v.withStamp z (v.stamp y) := v.ext _ _ (by simp [hzy]) (by simp)
      have hfy : v'.key (f y) = v'.key (f z) := by rw [hyz, hwith, v'.key_withStamp]
      rw [hfy, ← hzy]
      exact hkey z (by simp [hz]) x (by simp)
    have ih := ih fun a ha b hb => hkey a (by simp [ha]) b (by simp [hb])
    rw [List.map_append, List.map_singleton, collapse_concat, ih, collapse_concat, add, add]
    have hmem : v'.key (f x) ∈ ((collapse v l).map f).map v'.key
        ↔ v.key x ∈ (collapse v l).map v.key := by
      simp only [List.map_map, List.mem_map, Function.comp_apply]
      exact exists_congr fun y => and_congr_right fun hy => hold y hy
    by_cases hx : v.key x ∈ (collapse v l).map v.key
    · rw [if_pos hx, if_pos (hmem.mpr hx), List.map_map, List.map_map]
      refine List.map_congr_left fun y hy => ?_
      simp only [Function.comp_apply]
      by_cases hyx : v.key y = v.key x
      · rw [if_pos hyx, if_pos ((hold y hy).mpr hyx), hwith, hstamp, hstamp]
      · rw [if_neg hyx, if_neg fun heq => hyx ((hold y hy).mp heq)]
    · rw [if_neg hx, if_neg fun h => hx (hmem.mp h), List.map_append, List.map_singleton]

end KeyedStamp
