/-
  Inkentry.Lib.ParentTree

  A rooted tree by its parent pointers: the ancestors of a node, the node
  itself first and the root last, and the nearest of them that is marked.
-/

import Mathlib.Data.List.Basic

/-- A tree whose nodes know their parents, up to a root. -/
structure ParentTree (Node : Type*) where
  root : Node
  parent : Node → Option Node
  depth : Node → ℕ
  parent_eq_none_iff : ∀ n, parent n = none ↔ n = root
  depth_parent : ∀ n p, parent n = some p → depth n = depth p + 1

namespace ParentTree

variable {Node : Type*} (t : ParentTree Node)

/-- The node and its next ancestors. -/
def ancestorsFrom : ℕ → Node → List Node
  | 0, n => [n]
  | k + 1, n => n :: (t.parent n).elim [] (ancestorsFrom k)

/-- The node and all its ancestors, nearest first. -/
def ancestors (n : Node) : List Node := t.ancestorsFrom (t.depth n) n

variable {t} {n p : Node}

theorem parent_root : t.parent t.root = none := (t.parent_eq_none_iff t.root).mpr rfl

theorem exists_parent (h : n ≠ t.root) : ∃ p, t.parent n = some p :=
  Option.ne_none_iff_exists'.mp fun hnone => h ((t.parent_eq_none_iff n).mp hnone)

theorem ancestors_root : t.ancestors t.root = [t.root] := by
  rw [ancestors]
  cases t.depth t.root with
  | zero => rfl
  | succ k => rw [ancestorsFrom, parent_root]; rfl

theorem ancestors_of_parent (h : t.parent n = some p) : t.ancestors n = n :: t.ancestors p := by
  rw [ancestors, t.depth_parent n p h, ancestorsFrom, h]
  rfl

theorem induction {motive : Node → Prop} (hroot : motive t.root)
    (hparent : ∀ n p, t.parent n = some p → motive p → motive n) (n : Node) : motive n := by
  induction hd : t.depth n generalizing n with
  | zero =>
    by_cases hn : n = t.root
    · exact hn ▸ hroot
    · obtain ⟨p, hp⟩ := exists_parent hn
      have := t.depth_parent n p hp
      omega
  | succ k ih =>
    by_cases hn : n = t.root
    · exact hn ▸ hroot
    · obtain ⟨p, hp⟩ := exists_parent hn
      refine hparent n p hp (ih p ?_)
      have := t.depth_parent n p hp
      omega

theorem mem_ancestors_self (n : Node) : n ∈ t.ancestors n := by
  by_cases hn : n = t.root
  · rw [hn, ancestors_root]
    exact List.mem_singleton_self _
  · obtain ⟨p, hp⟩ := exists_parent hn
    rw [ancestors_of_parent hp]
    exact List.mem_cons_self

theorem root_mem_ancestors (n : Node) : t.root ∈ t.ancestors n := by
  induction n using t.induction with
  | hroot => exact mem_ancestors_self t.root
  | hparent n p hp ih =>
    rw [ancestors_of_parent hp]
    exact List.mem_cons_of_mem n ih

theorem rel_of_mem_ancestors {r : Node → Node → Prop} (hrefl : ∀ n, r n n)
    (htrans : ∀ a b c, r a b → r b c → r a c) (hparent : ∀ n p, t.parent n = some p → r p n)
    {a : Node} (h : a ∈ t.ancestors n) : r a n := by
  induction n using t.induction with
  | hroot =>
    rw [ancestors_root, List.mem_singleton] at h
    exact h ▸ hrefl _
  | hparent n p hp ih =>
    rw [ancestors_of_parent hp] at h
    rcases List.mem_cons.mp h with rfl | hmem
    · exact hrefl _
    · exact htrans _ _ _ (ih hmem) (hparent n p hp)

end ParentTree
