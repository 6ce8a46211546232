/-
  Inkentry.Lib.RankFusion

  Reciprocal rank fusion: the rows of two ranked lists in one order.  A row
  earns from each list the reciprocal of its place there, moved by a constant;
  the rows with the greatest sums come first, rows with equal sums in the order
  of a key.

  A row is known by its name, and only the names that rows share and the order
  of their keys count (`fused_congr`).
-/

import Inkentry.Lib.Firsts
import Inkentry.Lib.OrderLimit
import Mathlib.Algebra.Order.Field.Basic
import Mathlib.Algebra.Order.Field.Rat
import Mathlib.Data.Prod.Lex

namespace RankFusion

open Firsts OrderLimit

variable {α β ι ι' σ σ' : Type*} [DecidableEq ι] [DecidableEq ι'] [LinearOrder σ] [LinearOrder σ']
  {K : ℚ} {name : α → ι} {key : α → σ} {limit : ℕ} {l l' : List α}

/-- What a list gives to a name: the reciprocal of its place. -/
def share (K : ℚ) (name : α → ι) (l : List α) (i : ι) : ℚ :=
  (l.findIdx? fun a => name a = i).elim 0 fun place => 1 / (K + ((place + 1 : ℕ) : ℚ))

def score (K : ℚ) (name : α → ι) (l l' : List α) (i : ι) : ℚ := share K name l i + share K name l' i

/-- The greatest sum first. -/
def fusedKey (K : ℚ) (name : α → ι) (key : α → σ) (l l' : List α) (a : α) : ℚ ×ₗ σ :=
  toLex (-score K name l l' (name a), key a)

/-- The `limit` best rows of the two lists. -/
def fused (K : ℚ) (name : α → ι) (key : α → σ) (limit : ℕ) (l l' : List α) : List α :=
  orderLimit (fusedKey K name key l l') limit (firsts name (l ++ l'))

/-! ## Shares -/

theorem share_of_not_mem {i : ι} (h : i ∉ l.map name) : share K name l i = 0 := by
  have hnone : (l.findIdx? fun a => name a = i) = none := by
    refine List.findIdx?_eq_none_iff.mpr fun a ha => ?_
    have hne : name a ≠ i := fun heq => h (heq ▸ List.mem_map_of_mem ha)
    simpa using hne
  rw [share, hnone]
  rfl

theorem share_le (hK : 0 ≤ K) (i : ι) : share K name l i ≤ 1 / (K + 1) := by
  rw [share]
  cases l.findIdx? fun a => name a = i with
  | none => exact one_div_nonneg.mpr (add_nonneg hK zero_le_one)
  | some place =>
    have hplace : (1 : ℚ) ≤ ((place + 1 : ℕ) : ℚ) := by
      exact_mod_cast Nat.le_add_left 1 place
    refine one_div_le_one_div_of_le (add_pos_of_nonneg_of_pos hK zero_lt_one) ?_
    exact add_le_add_right hplace K

/-- A row of a list gets more than nothing, the less the longer the list. -/
theorem le_share (hK : 0 ≤ K) {i : ι} (h : i ∈ l.map name) {n : ℕ} (hn : l.length ≤ n) :
    1 / (K + n) ≤ share K name l i := by
  obtain ⟨a, ha, rfl⟩ := List.mem_map.mp h
  obtain ⟨place, hfound⟩ : ∃ place, (l.findIdx? fun b => name b = name a) = some place := by
    refine Option.isSome_iff_exists.mp ?_
    rw [List.findIdx?_isSome]
    exact List.any_eq_true.mpr ⟨a, ha, by simp⟩
  have hlt : place < l.length := (List.findIdx?_eq_some_iff_getElem.mp hfound).1
  have hpos : (0 : ℚ) < ((place + 1 : ℕ) : ℚ) := by exact_mod_cast Nat.succ_pos place
  have hle : ((place + 1 : ℕ) : ℚ) ≤ n := by exact_mod_cast (Nat.succ_le_of_lt hlt).trans hn
  rw [share, hfound]
  exact one_div_le_one_div_of_le (add_pos_of_nonneg_of_pos hK hpos) (add_le_add_right hle K)

theorem share_map (f : β → α) (l : List β) (i : ι) :
    share K name (l.map f) i = share K (fun b => name (f b)) l i := by
  rw [share, share, List.findIdx?_map]
  rfl

theorem share_congr {name' : α → ι'} {a : α}
    (h : ∀ b ∈ l, name b = name a ↔ name' b = name' a) :
    share K name l (name a) = share K name' l (name' a) := by
  have hidx : (l.findIdx? fun b => name b = name a) = l.findIdx? fun b => name' b = name' a := by
    induction l with
    | nil => rfl
    | cons b l ih =>
      rw [List.findIdx?_cons, List.findIdx?_cons, ih fun c hc => h c (List.mem_cons_of_mem b hc)]
      simp [h b List.mem_cons_self]
  rw [share, share, hidx]

/-! ## The fused list -/

theorem mem_of_mem_fused {a : α} (h : a ∈ fused K name key limit l l') : a ∈ l ++ l' :=
  mem_of_mem_firsts (mem_of_mem_orderLimit _ h)

theorem fused_names_nodup : ((fused K name key limit l l').map name).Nodup := by
  have hperm := (sortBy_perm (fusedKey K name key l l') (firsts name (l ++ l'))).map name
  exact (hperm.nodup_iff.mpr (firsts_keys_nodup name (l ++ l'))).sublist
    ((List.take_sublist limit _).map name)

theorem length_fused :
    (fused K name key limit l l').length = min limit (firsts name (l ++ l')).length :=
  length_orderLimit _ _ _

theorem fused_pairwise : (fused K name key limit l l').Pairwise fun a b =>
    fusedKey K name key l l' a ≤ fusedKey K name key l l' b :=
  orderLimit_pairwise _ _ _

theorem le_of_not_mem_fused {a b : α} (ha : a ∈ fused K name key limit l l')
    (hb : b ∈ firsts name (l ++ l')) (hout : b ∉ fused K name key limit l l') :
    fusedKey K name key l l' a ≤ fusedKey K name key l l' b :=
  le_of_not_mem_orderLimit _ ha hb hout

theorem head?_fused (hlimit : 0 < limit) {a : α} (ha : a ∈ firsts name (l ++ l'))
    (hbest : ∀ b ∈ l ++ l', name b ≠ name a →
      score K name l l' (name b) < score K name l l' (name a)) :
    (fused K name key limit l l').head? = some a := by
  refine head?_orderLimit _ hlimit ha fun b hb hne => ?_
  have hname : name b ≠ name a := fun heq => hne (eq_of_mem_firsts hb ha heq)
  exact Prod.Lex.toLex_lt_toLex.mpr
    (.inl (neg_lt_neg (hbest b (mem_of_mem_firsts hb) hname)))

theorem fused_map (f : β → α) (l l' : List β) : fused K name key limit (l.map f) (l'.map f)
    = (fused K (fun b => name (f b)) (fun b => key (f b)) limit l l').map f := by
  have hkey (b : β) : fusedKey K name key (l.map f) (l'.map f) (f b)
      = fusedKey K (fun b => name (f b)) (fun b => key (f b)) l l' b := by
    rw [fusedKey, fusedKey, score, score, share_map, share_map]
  rw [fused, fused, ← List.map_append, firsts_map]
  exact orderLimit_map _ (fun a b => by rw [hkey, hkey]) limit _

/-- Names that tell the same rows apart, and keys that order them alike, leave the same list. -/
theorem fused_congr {name' : α → ι'} {key' : α → σ'}
    (hname : ∀ a ∈ l ++ l', ∀ b ∈ l ++ l', name a = name b ↔ name' a = name' b)
    (hkey : ∀ a ∈ firsts name (l ++ l'), ∀ b ∈ firsts name (l ++ l'), key' a ≤ key' b ↔ key a ≤ key b) :
    fused K name' key' limit l l' = fused K name key limit l l' := by
  have hscore : ∀ a ∈ l ++ l', score K name l l' (name a) = score K name' l l' (name' a) := by
    intro a ha
    rw [score, score, share_congr fun b hb => hname b (List.mem_append_left l' hb) a ha,
      share_congr fun b hb => hname b (List.mem_append_right l hb) a ha]
  rw [fused, fused, orderLimit, orderLimit, ← firsts_congr hname]
  refine congrArg (List.take limit) (sortBy_congr _ fun a ha b hb => ?_)
  rw [fusedKey, fusedKey, fusedKey, fusedKey, Prod.Lex.toLex_le_toLex, Prod.Lex.toLex_le_toLex,
    hkey a ha b hb, hscore a (mem_of_mem_firsts ha), hscore b (mem_of_mem_firsts hb)]

end RankFusion
