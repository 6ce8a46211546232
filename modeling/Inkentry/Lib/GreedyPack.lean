/-
  Inkentry.Lib.GreedyPack

  Packing a list under a budget, first come first served: an item is kept when
  it fits in the room that is left.

  `pack_append` says that packing goes on where it stopped, so what is kept of
  the front never depends on the back, and `pack_split` says what decides about
  one item.
-/

import Mathlib.Algebra.BigOperators.Group.List.Basic
import Mathlib.Algebra.Order.Ring.Nat

namespace GreedyPack

variable {α β : Type*} (cost : α → Nat)
variable {room : Nat}

/-- What is kept of a list, and the room it leaves. -/
def pack : Nat → List α → List α × Nat
  | room, [] => ([], room)
  | room, a :: rest =>
    if cost a ≤ room then (a :: (pack (room - cost a) rest).1, (pack (room - cost a) rest).2)
    else pack room rest

def total (items : List α) : Nat := (items.map cost).sum

@[simp] theorem total_nil : total cost [] = 0 := rfl

@[simp] theorem total_cons (a : α) (rest : List α) :
    total cost (a :: rest) = cost a + total cost rest := by
  rw [total, List.map_cons, List.sum_cons, total]

@[simp] theorem total_append (items items' : List α) :
    total cost (items ++ items') = total cost items + total cost items' := by
  rw [total, List.map_append, List.sum_append, total, total]

theorem total_map (f : β → α) (items : List β) :
    total cost (items.map f) = total (fun b => cost (f b)) items := by
  rw [total, List.map_map, total]
  rfl

@[simp] theorem pack_nil (room : Nat) : pack cost room [] = ([], room) := rfl

theorem pack_cons_of_le {a : α} (h : cost a ≤ room) (rest : List α) :
    pack cost room (a :: rest)
      = (a :: (pack cost (room - cost a) rest).1, (pack cost (room - cost a) rest).2) := by
  rw [pack, if_pos h]

theorem pack_cons_of_lt {a : α} (h : room < cost a) (rest : List α) :
    pack cost room (a :: rest) = pack cost room rest := by
  rw [pack, if_neg (by omega)]

theorem pack_sublist (room : Nat) (items : List α) : (pack cost room items).1.Sublist items := by
  induction items generalizing room with
  | nil => exact List.Sublist.refl _
  | cons a rest ih =>
    by_cases hfits : cost a ≤ room
    · rw [pack_cons_of_le cost hfits]
      exact (ih _).cons_cons a
    · rw [pack_cons_of_lt cost (by omega)]
      exact (ih room).cons a

theorem total_pack (room : Nat) (items : List α) :
    total cost (pack cost room items).1 + (pack cost room items).2 = room := by
  induction items generalizing room with
  | nil => rw [pack_nil, total_nil, Nat.zero_add]
  | cons a rest ih =>
    by_cases hfits : cost a ≤ room
    · have hrest := ih (room - cost a)
      rw [pack_cons_of_le cost hfits, total_cons]
      omega
    · rw [pack_cons_of_lt cost (by omega)]
      exact ih room

theorem pack_append (room : Nat) (items items' : List α) :
    pack cost room (items ++ items') =
      ((pack cost room items).1 ++ (pack cost (pack cost room items).2 items').1,
        (pack cost (pack cost room items).2 items').2) := by
  induction items generalizing room with
  | nil => rfl
  | cons a rest ih =>
    by_cases hfits : cost a ≤ room
    · rw [List.cons_append, pack_cons_of_le cost hfits, pack_cons_of_le cost hfits, ih,
        List.cons_append]
    · rw [List.cons_append, pack_cons_of_lt cost (by omega), pack_cons_of_lt cost (by omega), ih]

/-- One item is kept when it fits in what the kept ones before it leave. -/
theorem pack_split (room : Nat) (before : List α) (a : α) (after : List α) :
    ∃ keptAfter, keptAfter.Sublist after ∧ (pack cost room (before ++ a :: after)).1 =
      (pack cost room before).1
        ++ (if total cost (pack cost room before).1 + cost a ≤ room then [a] else [])
        ++ keptAfter := by
  have hsum := total_pack cost room before
  rw [pack_append]
  by_cases hfits : cost a ≤ (pack cost room before).2
  · refine ⟨_, pack_sublist cost ((pack cost room before).2 - cost a) after, ?_⟩
    rw [pack_cons_of_le cost hfits, if_pos (by omega), List.append_assoc, List.singleton_append]
  · refine ⟨_, pack_sublist cost (pack cost room before).2 after, ?_⟩
    rw [pack_cons_of_lt cost (by omega), if_neg (by omega), List.append_nil]

theorem pack_of_total_le {items : List α} (h : total cost items ≤ room) :
    pack cost room items = (items, room - total cost items) := by
  induction items generalizing room with
  | nil => rw [pack_nil, total_nil, Nat.sub_zero]
  | cons a rest ih =>
    rw [total_cons] at h
    rw [pack_cons_of_le cost (by omega), ih (by omega), total_cons, Nat.sub_sub]

theorem pack_map (f : β → α) (room : Nat) (items : List β) :
    pack cost room (items.map f) =
      ((pack (fun b => cost (f b)) room items).1.map f, (pack (fun b => cost (f b)) room items).2) := by
  induction items generalizing room with
  | nil => rfl
  | cons b rest ih =>
    by_cases hfits : cost (f b) ≤ room
    · rw [List.map_cons, pack_cons_of_le cost hfits, ih,
        pack_cons_of_le (fun b => cost (f b)) hfits, List.map_cons]
    · rw [List.map_cons, pack_cons_of_lt cost (by omega), ih,
        pack_cons_of_lt (fun b => cost (f b)) (by omega)]

end GreedyPack
