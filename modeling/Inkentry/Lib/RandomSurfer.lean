/-
  Inkentry.Lib.RandomSurfer

  Scores over the ends of a list of directed edges, moved one round at a time: a
  node passes a part `d` of its score on along its links in equal shares, or to
  all nodes alike when it has none, and the rest is handed out evenly.  An edge
  from a node to itself is not a link; parallel edges are as many links.

  A round moves scores and makes none (`sum_follow`), and it looks at the edges
  neither by order nor by name (`follow_perm`, `follow_map`).
-/

import Mathlib.Algebra.BigOperators.Field
import Mathlib.Algebra.BigOperators.Group.Finset.Basic
import Mathlib.Algebra.Order.BigOperators.Group.List
import Mathlib.Algebra.Order.BigOperators.Group.Finset
import Mathlib.Algebra.Order.Field.Basic
import Mathlib.Tactic.FieldSimp
import Mathlib.Tactic.Positivity
import Mathlib.Tactic.Ring

namespace RandomSurfer

open Finset

variable {α β K : Type*} [DecidableEq α] [DecidableEq β]

/-! ## Links -/

variable {edges edges' : List (α × α)}

/-- The nodes that the edges name. -/
def ends (edges : List (α × α)) : Finset α := (edges.map Prod.fst ++ edges.map Prod.snd).toFinset

/-- The edges between two nodes. -/
def links (edges : List (α × α)) : List (α × α) := edges.filter fun e => e.1 ≠ e.2

/-- How many links leave a node. -/
def degree (edges : List (α × α)) (a : α) : ℕ := (links edges).countP fun e => e.1 = a

/-- The nodes that no link leaves. -/
def dangling (edges : List (α × α)) : Finset α := (ends edges).filter fun a => degree edges a = 0

theorem mem_ends {edges : List (α × α)} {a : α} :
    a ∈ ends edges ↔ ∃ e ∈ edges, a = e.1 ∨ a = e.2 := by
  simp only [ends, List.mem_toFinset, List.mem_append, List.mem_map]
  grind

theorem ends_nonempty {edges : List (α × α)} (h : edges ≠ []) : (ends edges).Nonempty := by
  obtain ⟨e, he⟩ := List.exists_mem_of_ne_nil edges h
  exact ⟨e.1, mem_ends.mpr ⟨e, he, .inl rfl⟩⟩

theorem mem_of_mem_links {edges : List (α × α)} {e : α × α} (h : e ∈ links edges) : e ∈ edges :=
  List.mem_of_mem_filter h

theorem ends_perm (h : edges.Perm edges') : ends edges = ends edges' :=
  List.toFinset_eq_of_perm _ _ ((h.map _).append (h.map _))

theorem links_perm (h : edges.Perm edges') :
    (links edges).Perm (links edges') := h.filter _

theorem degree_perm (h : edges.Perm edges') (a : α) :
    degree edges a = degree edges' a := (links_perm h).countP_eq _

theorem dangling_perm (h : edges.Perm edges') : dangling edges = dangling edges' := by
  simp only [dangling, ends_perm h, degree_perm h]

section Rename

variable {f : α → β} (hf : Function.Injective f)

theorem ends_map (f : α → β) (edges : List (α × α)) :
    ends (edges.map (Prod.map f f)) = (ends edges).image f := by
  ext b
  simp only [mem_ends, mem_image, List.mem_map]
  constructor
  · rintro ⟨-, ⟨e, he, rfl⟩, rfl | rfl⟩
    · exact ⟨e.1, ⟨e, he, .inl rfl⟩, rfl⟩
    · exact ⟨e.2, ⟨e, he, .inr rfl⟩, rfl⟩
  · rintro ⟨a, ⟨e, he, rfl | rfl⟩, rfl⟩
    · exact ⟨_, ⟨e, he, rfl⟩, .inl rfl⟩
    · exact ⟨_, ⟨e, he, rfl⟩, .inr rfl⟩

include hf

theorem links_map (edges : List (α × α)) :
    links (edges.map (Prod.map f f)) = (links edges).map (Prod.map f f) := by
  rw [links, links, List.filter_map]
  congr 1
  exact List.filter_congr fun e _ => by simp [hf.eq_iff]

theorem degree_map (edges : List (α × α)) (a : α) :
    degree (edges.map (Prod.map f f)) (f a) = degree edges a := by
  rw [degree, degree, links_map hf, List.countP_map]
  exact List.countP_congr fun e _ => by simp [hf.eq_iff]

theorem dangling_map (edges : List (α × α)) :
    dangling (edges.map (Prod.map f f)) = (dangling edges).image f := by
  ext b
  simp only [dangling, ends_map, mem_filter, mem_image]
  constructor
  · rintro ⟨⟨a, ha, rfl⟩, hdegree⟩
    exact ⟨a, ⟨ha, by rwa [degree_map hf] at hdegree⟩, rfl⟩
  · rintro ⟨a, ⟨ha, hdegree⟩, rfl⟩
    exact ⟨⟨a, ha, rfl⟩, by rwa [degree_map hf]⟩

end Rename

/-! ## One round -/

section Field

variable [Field K]

/-- What a node holds after a round. -/
def follow (edges : List (α × α)) (d : K) (s : α → K) (a : α) : K :=
  (1 - d) / #(ends edges) + d * (∑ b ∈ dangling edges, s b) / #(ends edges)
    + (((links edges).filter fun e => e.2 = a).map fun e => d * s e.1 / degree edges e.1).sum

theorem follow_perm {edges edges' : List (α × α)} (h : edges.Perm edges') (d : K) (s : α → K)
    (a : α) : follow edges d s a = follow edges' d s a := by
  rw [follow, follow, ends_perm h, dangling_perm h]
  congr 1
  simp only [degree_perm h]
  exact (((links_perm h).filter _).map _).sum_eq

theorem follow_map {f : α → β} (hf : Function.Injective f) (edges : List (α × α)) (d : K)
    {s : α → K} {s' : β → K} (hs : ∀ a, s' (f a) = s a) (a : α) :
    follow (edges.map (Prod.map f f)) d s' (f a) = follow edges d s a := by
  have hdangling : ∑ b ∈ dangling (edges.map (Prod.map f f)), s' b = ∑ b ∈ dangling edges, s b := by
    rw [dangling_map hf, sum_image hf.injOn]
    exact sum_congr rfl fun b _ => hs b
  rw [follow, follow, hdangling, ends_map, card_image_of_injective _ hf, links_map hf,
    List.filter_map, List.map_map]
  congr 2
  · refine congrArg₂ List.map (funext fun e => ?_) (List.filter_congr fun e _ => ?_)
    · show d * s' (f e.1) / degree (edges.map (Prod.map f f)) (f e.1) = _
      rw [hs, degree_map hf]
    · simp [hf.eq_iff]

/-! ## No score is made or lost -/

theorem sum_fibres {γ : Type*} (l : List γ) (dest : γ → α) (share : γ → K) {nodes : Finset α}
    (h : ∀ e ∈ l, dest e ∈ nodes) :
    ∑ a ∈ nodes, ((l.filter fun e => dest e = a).map share).sum = (l.map share).sum := by
  induction l with
  | nil => simp
  | cons e l ih =>
    have hrest := ih fun e he => h e (List.mem_cons_of_mem _ he)
    have hhead : ∀ a, (((e :: l).filter fun e => dest e = a).map share).sum
        = (if dest e = a then share e else 0) + ((l.filter fun e => dest e = a).map share).sum := by
      intro a
      by_cases ha : dest e = a
      · simp [ha]
      · simp [ha]
    rw [sum_congr rfl fun a _ => hhead a, sum_add_distrib, hrest, sum_ite_eq,
      if_pos (h e List.mem_cons_self), List.map_cons, List.sum_cons]

/-- The shares that leave a node along its links are its score, where it has links. -/
theorem sum_shares [CharZero K] (edges : List (α × α)) (s : α → K) (a : α) :
    (((links edges).filter fun e => e.1 = a).map fun e => s e.1 / degree edges e.1).sum
      = if degree edges a = 0 then 0 else s a := by
  have hshare : ((links edges).filter fun e => e.1 = a).map (fun e => s e.1 / degree edges e.1)
      = List.replicate (degree edges a) (s a / degree edges a) := by
    rw [List.eq_replicate_iff, List.length_map, degree, List.countP_eq_length_filter]
    refine ⟨rfl, fun x hx => ?_⟩
    obtain ⟨e, he, rfl⟩ := List.mem_map.mp hx
    have hfrom : e.1 = a := by simpa using List.of_mem_filter he
    rw [hfrom, degree, List.countP_eq_length_filter]
  rw [hshare, List.sum_replicate, nsmul_eq_mul]
  split
  case isTrue hzero => rw [hzero, Nat.cast_zero, zero_mul]
  case isFalse hne =>
    have hdegree : (degree edges a : K) ≠ 0 := Nat.cast_ne_zero.mpr hne
    field_simp

theorem sum_follow [CharZero K] {edges : List (α × α)} (hne : edges ≠ []) (d : K) {s : α → K}
    (hs : ∑ a ∈ ends edges, s a = 1) : ∑ a ∈ ends edges, follow edges d s a = 1 := by
  have hcard : (#(ends edges) : K) ≠ 0 :=
    Nat.cast_ne_zero.mpr (card_ne_zero.mpr (ends_nonempty hne))
  have hpassed : ∑ a ∈ ends edges,
      (((links edges).filter fun e => e.2 = a).map fun e => d * s e.1 / degree edges e.1).sum
        = d * ∑ a ∈ ends edges, if degree edges a = 0 then 0 else s a := by
    rw [sum_fibres (links edges) Prod.snd _
      fun e he => mem_ends.mpr ⟨e, mem_of_mem_links he, .inr rfl⟩]
    rw [← sum_congr rfl fun a _ => sum_shares edges s a]
    rw [sum_fibres (links edges) Prod.fst _
      fun e he => mem_ends.mpr ⟨e, mem_of_mem_links he, .inl rfl⟩]
    rw [← List.sum_map_mul_left]
    exact congrArg List.sum (List.map_congr_left fun e _ => mul_div_assoc _ _ _)
  have hsplit : (∑ b ∈ dangling edges, s b)
      + (∑ a ∈ ends edges, if degree edges a = 0 then 0 else s a) = 1 := by
    rw [dangling, sum_filter, ← sum_add_distrib, ← hs]
    refine sum_congr rfl fun a _ => ?_
    split
    · exact add_zero _
    · exact zero_add _
  simp only [follow, sum_add_distrib, sum_const, nsmul_eq_mul]
  rw [hpassed, mul_div_cancel₀ _ hcard, mul_div_cancel₀ _ hcard, add_assoc, ← mul_add, hsplit]
  ring

end Field

theorem follow_nonneg [Field K] [LinearOrder K] [IsStrictOrderedRing K] (edges : List (α × α))
    {d : K} (h0 : 0 ≤ d) (h1 : d ≤ 1) {s : α → K} (hs : ∀ a ∈ ends edges, 0 ≤ s a) (a : α) :
    0 ≤ follow edges d s a := by
  have hbase : 0 ≤ (1 - d) / (#(ends edges) : K) := div_nonneg (sub_nonneg.mpr h1) (Nat.cast_nonneg _)
  have hdangling : 0 ≤ d * (∑ b ∈ dangling edges, s b) / (#(ends edges) : K) := by
    refine div_nonneg (mul_nonneg h0 (sum_nonneg fun b hb => ?_)) (Nat.cast_nonneg _)
    exact hs b (mem_of_mem_filter b hb)
  have hpassed : 0 ≤ (((links edges).filter fun e => e.2 = a).map
      fun e => d * s e.1 / degree edges e.1).sum := by
    refine List.sum_nonneg fun x hx => ?_
    obtain ⟨e, he, rfl⟩ := List.mem_map.mp hx
    have hend : e.1 ∈ ends edges :=
      mem_ends.mpr ⟨e, mem_of_mem_links (List.mem_of_mem_filter he), .inl rfl⟩
    exact div_nonneg (mul_nonneg h0 (hs e.1 hend)) (Nat.cast_nonneg _)
  exact add_nonneg (add_nonneg hbase hdangling) hpassed

end RandomSurfer
