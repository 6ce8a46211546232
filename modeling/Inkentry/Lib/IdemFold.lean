/-
  Inkentry.Lib.IdemFold

  Folding an operation that is commutative, associative and idempotent: the
  result depends only on the set of values folded, not on their order or on
  how often each occurs.
-/

import Mathlib.Data.Multiset.Fold

namespace IdemFold

variable {α : Type*} (op : α → α → α) [Std.Commutative op] [Std.Associative op]
  [Std.IdempotentOp op]

/-- The fold of an idempotent, commutative and associative operation is a
    function of the set of values. -/
theorem foldl_eq_of_mem_iff (b : α) {l l' : List α} (h : ∀ a, a ∈ l ↔ a ∈ l') :
    l.foldl op b = l'.foldl op b := by
  classical
  rw [← Multiset.coe_fold_l, ← Multiset.coe_fold_l, ← Multiset.fold_dedup_idem op (l : Multiset α),
    ← Multiset.fold_dedup_idem op (l' : Multiset α)]
  congr 1
  exact Multiset.dedup_ext.mpr h

end IdemFold
