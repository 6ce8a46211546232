/-
  Inkentry.Lib.OverlapWindows

  Rows of given sizes cut into windows of whole rows under a budget, each window
  after the first going back over some of the rows before it.  Between two rows
  of a window there is a separator of size one.

  `offset` is where a row would begin if all rows stood in one line, so that what
  a window takes is a difference of two offsets: a window ends at the last row
  that keeps this difference within the budget (`le_windowEnd_iff`).

  Every run of windows covers the rows in order and without a gap
  (`windowsFrom_chain`, `windowsFrom_getLast`).  A window brings something new
  exactly when the shared rows leave room for the next one (`lt_windowEnd_iff`).
-/

import Mathlib.Data.List.Basic
import Mathlib.Data.List.Chain
import Mathlib.Data.List.GetD
import Mathlib.Algebra.BigOperators.Group.List.Basic
import Mathlib.Algebra.Order.Ring.Nat

namespace OverlapWindows

/-! ## Offsets -/

/-- The rows before the `i`th, each with its separator. -/
def offset (sizes : List Nat) (i : Nat) : Nat := ((sizes.take i).map (· + 1)).sum

theorem offset_succ {sizes : List Nat} {i : Nat} (h : i < sizes.length) :
    offset sizes (i + 1) = offset sizes i + (sizes[i] + 1) := by
  rw [offset, List.take_succ_eq_append_getElem h, List.map_append, List.sum_append, offset]
  rfl

theorem offset_drop (sizes : List Nat) (i j : Nat) :
    offset sizes (i + j) = offset sizes i + offset (sizes.drop i) j := by
  rw [offset, List.take_add, List.map_append, List.sum_append, offset, offset]

/-! ## Filling a window -/

/-- How many of the rows that follow still fit. -/
def fillFrom (budget : Nat) : Nat → List Nat → Nat
  | _, [] => 0
  | acc, c :: rest => if acc + (c + 1) > budget then 0 else fillFrom budget (acc + (c + 1)) rest + 1

/-- Where a window ends; its first row is always taken. -/
def windowEnd (sizes : List Nat) (budget start : Nat) : Nat :=
  match sizes.drop start with
  | [] => start
  | c :: rest => start + 1 + fillFrom budget c rest

theorem le_fillFrom_iff (budget acc : Nat) (rows : List Nat) (k : Nat) :
    k ≤ fillFrom budget acc rows
      ↔ k ≤ rows.length ∧ (k = 0 ∨ acc + offset rows k ≤ budget) := by
  induction rows generalizing acc k with
  | nil => simp +contextual [fillFrom]
  | cons c rest ih =>
    cases k with
    | zero => simp
    | succ k =>
      have hoffset : offset (c :: rest) (k + 1) = c + 1 + offset rest k := by
        rw [offset, List.take_succ_cons, List.map_cons, List.sum_cons, offset]
      rw [fillFrom, hoffset, List.length_cons]
      by_cases hover : acc + (c + 1) > budget
      · rw [if_pos hover]
        omega
      · rw [if_neg hover, Nat.succ_le_succ_iff, ih]
        have hzero : k = 0 → offset rest k = 0 := by
          rintro rfl
          rfl
        omega

/-- A window goes on for as long as what it takes stays within the budget. -/
theorem le_windowEnd_iff {sizes : List Nat} {start : Nat} (h : start < sizes.length)
    (budget e : Nat) : e ≤ windowEnd sizes budget start
      ↔ e ≤ start + 1
        ∨ (e ≤ sizes.length ∧ offset sizes e ≤ offset sizes start + budget + 1) := by
  have hdrop : sizes.drop start = sizes[start] :: sizes.drop (start + 1) :=
    List.drop_eq_getElem_cons h
  have hend : windowEnd sizes budget start
      = start + 1 + fillFrom budget sizes[start] (sizes.drop (start + 1)) := by
    rw [windowEnd, hdrop]
  rw [hend]
  by_cases hfirst : e ≤ start + 1
  · exact iff_of_true (by omega) (Or.inl hfirst)
  · obtain ⟨k, rfl⟩ := Nat.exists_eq_add_of_le (Nat.le_of_not_le hfirst)
    have hfill := le_fillFrom_iff budget sizes[start] (sizes.drop (start + 1)) k
    have hsum := offset_drop sizes (start + 1) k
    have hstep := offset_succ h
    rw [List.length_drop] at hfill
    omega

theorem lt_windowEnd {sizes : List Nat} {start : Nat} (h : start < sizes.length) (budget : Nat) :
    start < windowEnd sizes budget start :=
  (le_windowEnd_iff h budget (start + 1)).mpr (Or.inl (Nat.le_refl _))

theorem windowEnd_le {sizes : List Nat} {start : Nat} (h : start < sizes.length) (budget : Nat) :
    windowEnd sizes budget start ≤ sizes.length := by
  rcases (le_windowEnd_iff h budget _).mp (Nat.le_refl _) with hle | hle
  · omega
  · exact hle.1

/-! ## Going back -/

/-- The first row of the next window: back from the end while the rows passed stay within the
    overlap, never to the start. -/
def stepBack (sizes : List Nat) (overlap start : Nat) : Nat → Nat → Nat
  | 0, _ => 0
  | n + 1, acc =>
    if n + 1 > start + 1 then
      if acc + (sizes.getD n 0 + 1) > overlap then n + 1
      else stepBack sizes overlap start n (acc + (sizes.getD n 0 + 1))
    else n + 1

theorem stepBack_le (sizes : List Nat) (overlap start n acc : Nat) :
    stepBack sizes overlap start n acc ≤ n := by
  induction n generalizing acc with
  | zero => exact Nat.le_refl 0
  | succ n ih =>
    rw [stepBack]
    split
    · split
      · exact Nat.le_refl _
      · have := ih (acc + (sizes.getD n 0 + 1))
        omega
    · exact Nat.le_refl _

theorem lt_stepBack {sizes : List Nat} {overlap start n : Nat} (h : start < n) (acc : Nat) :
    start < stepBack sizes overlap start n acc := by
  induction n generalizing acc with
  | zero => omega
  | succ n ih =>
    rw [stepBack]
    split
    · split
      · exact h
      · exact ih (by omega) _
    · exact h

/-! ## The windows -/

/-- The windows that begin at a row, each from its first row up to the one after its last. -/
def windowsFrom (sizes : List Nat) (budget overlap start : Nat) : List (Nat × Nat) :=
  if _h : start < sizes.length then
    (start, windowEnd sizes budget start) ::
      (if windowEnd sizes budget start ≥ sizes.length then []
      else windowsFrom sizes budget overlap
        (stepBack sizes overlap start (windowEnd sizes budget start) 0))
  else []
termination_by sizes.length - start
decreasing_by
  have hlt := @lt_stepBack sizes overlap start _ (lt_windowEnd _h budget) 0
  omega

def nextStart (sizes : List Nat) (budget overlap start : Nat) : Nat :=
  stepBack sizes overlap start (windowEnd sizes budget start) 0

variable {sizes : List Nat} {budget overlap start : Nat}

theorem windowsFrom_of_last (h : start < sizes.length)
    (hlast : sizes.length ≤ windowEnd sizes budget start) :
    windowsFrom sizes budget overlap start = [(start, windowEnd sizes budget start)] := by
  rw [windowsFrom, dif_pos h, if_pos hlast]

theorem windowsFrom_of_more (h : start < sizes.length)
    (hmore : windowEnd sizes budget start < sizes.length) :
    windowsFrom sizes budget overlap start = (start, windowEnd sizes budget start)
      :: windowsFrom sizes budget overlap (nextStart sizes budget overlap start) := by
  rw [windowsFrom, dif_pos h, if_neg (by omega), nextStart]

theorem windowsFrom_of_le (h : sizes.length ≤ start) :
    windowsFrom sizes budget overlap start = [] := by
  rw [windowsFrom, dif_neg (by omega)]

theorem lt_nextStart (h : start < sizes.length) : start < nextStart sizes budget overlap start :=
  lt_stepBack (lt_windowEnd h budget) 0

theorem nextStart_le : nextStart sizes budget overlap start ≤ windowEnd sizes budget start :=
  stepBack_le sizes overlap start _ 0

/-- The run of windows from a start, by the window it begins with. -/
theorem windows_induction {motive : Nat → Prop}
    (last : ∀ start, start < sizes.length → sizes.length ≤ windowEnd sizes budget start →
      motive start)
    (more : ∀ start, start < sizes.length → windowEnd sizes budget start < sizes.length →
      motive (nextStart sizes budget overlap start) → motive start)
    {start : Nat} (h : start < sizes.length) : motive start := by
  induction hn : sizes.length - start using Nat.strongRecOn generalizing start with
  | ind n ih =>
    rcases Nat.lt_or_ge (windowEnd sizes budget start) sizes.length with hmore | hlast
    · have hlt := @lt_nextStart sizes budget overlap start h
      have hle := @nextStart_le sizes budget overlap start
      exact more start h hmore (ih _ (by omega) (by omega) rfl)
    · exact last start h hlast

theorem head?_windowsFrom (h : start < sizes.length) :
    (windowsFrom sizes budget overlap start).head?
      = some (start, windowEnd sizes budget start) := by
  rw [windowsFrom, dif_pos h, List.head?_cons]

theorem snd_of_mem_windowsFrom (h : start < sizes.length) :
    ∀ w ∈ windowsFrom sizes budget overlap start,
      start ≤ w.1 ∧ w.1 < sizes.length ∧ w.2 = windowEnd sizes budget w.1 := by
  refine @windows_induction sizes budget overlap (fun start => ∀ w ∈ windowsFrom sizes budget
    overlap start, start ≤ w.1 ∧ w.1 < sizes.length ∧ w.2 = windowEnd sizes budget w.1)
    ?last ?more start h
  case last =>
    intro start h hlast w hw
    rw [windowsFrom_of_last h hlast] at hw
    rw [List.mem_singleton.mp hw]
    exact ⟨Nat.le_refl _, h, rfl⟩
  case more =>
    intro start h hmore ih w hw
    rw [windowsFrom_of_more h hmore] at hw
    rcases List.mem_cons.mp hw with rfl | hrest
    · exact ⟨Nat.le_refl _, h, rfl⟩
    · obtain ⟨hle, hin, heq⟩ := ih w hrest
      have hlt := @lt_nextStart sizes budget overlap start h
      exact ⟨by omega, hin, heq⟩

/-- The next window begins later, and no later than where this one ends. -/
theorem windowsFrom_chain (h : start < sizes.length) :
    (windowsFrom sizes budget overlap start).IsChain fun a b =>
      b.1 = nextStart sizes budget overlap a.1 ∧ a.2 < sizes.length := by
  refine @windows_induction sizes budget overlap (fun start =>
    (windowsFrom sizes budget overlap start).IsChain fun a b =>
      b.1 = nextStart sizes budget overlap a.1 ∧ a.2 < sizes.length) ?last ?more start h
  case last =>
    intro start h hlast
    rw [windowsFrom_of_last h hlast]
    exact List.isChain_singleton _
  case more =>
    intro start h hmore ih
    have hle := @nextStart_le sizes budget overlap start
    rw [windowsFrom_of_more h hmore]
    refine List.isChain_cons.mpr ⟨?_, ih⟩
    intro w hw
    rw [head?_windowsFrom (by omega)] at hw
    rw [← Option.some.inj hw]
    exact ⟨rfl, hmore⟩

theorem windowsFrom_getLast (h : start < sizes.length) :
    ∃ w, (windowsFrom sizes budget overlap start).getLast? = some w ∧ w.2 = sizes.length := by
  refine @windows_induction sizes budget overlap (fun start => ∃ w,
    (windowsFrom sizes budget overlap start).getLast? = some w ∧ w.2 = sizes.length)
    ?last ?more start h
  case last =>
    intro start h hlast
    have hend := windowEnd_le h budget
    rw [windowsFrom_of_last h hlast]
    exact ⟨_, rfl, Nat.le_antisymm hend hlast⟩
  case more =>
    intro start h hmore ih
    obtain ⟨w, hw, hend⟩ := ih
    have hle := @nextStart_le sizes budget overlap start
    have hhead := @head?_windowsFrom sizes budget overlap
      (nextStart sizes budget overlap start) (by omega)
    refine ⟨w, ?_, hend⟩
    rw [windowsFrom_of_more h hmore, List.getLast?_cons_of_ne_nil ?_, hw]
    intro hnil
    rw [hnil] at hhead
    exact absurd hhead (by simp)

theorem exists_mem_windowsFrom (h : start < sizes.length) :
    ∀ i, start ≤ i → i < sizes.length →
      ∃ w ∈ windowsFrom sizes budget overlap start, w.1 ≤ i ∧ i < w.2 := by
  refine @windows_induction sizes budget overlap (fun start => ∀ i, start ≤ i →
    i < sizes.length → ∃ w ∈ windowsFrom sizes budget overlap start, w.1 ≤ i ∧ i < w.2)
    ?last ?more start h
  case last =>
    intro start h hlast i hi hlt
    rw [windowsFrom_of_last h hlast]
    exact ⟨_, List.mem_singleton_self _, hi, Nat.lt_of_lt_of_le hlt hlast⟩
  case more =>
    intro start h hmore ih i hi hlt
    have hle := @nextStart_le sizes budget overlap start
    rw [windowsFrom_of_more h hmore]
    rcases Nat.lt_or_ge i (windowEnd sizes budget start) with hin | hout
    · exact ⟨_, List.mem_cons_self .., hi, hin⟩
    · obtain ⟨w, hw, hcover⟩ := ih i (by omega) hlt
      exact ⟨w, List.mem_cons_of_mem _ hw, hcover⟩

/-! ## What a window adds -/

/-- The rows shared with the window before leave room for one more, or there are none. -/
def Leaves (sizes : List Nat) (budget overlap start : Nat) : Prop :=
  nextStart sizes budget overlap start = windowEnd sizes budget start
    ∨ offset sizes (windowEnd sizes budget start + 1)
      ≤ offset sizes (nextStart sizes budget overlap start) + budget + 1

theorem lt_windowEnd_iff (h : windowEnd sizes budget start < sizes.length) :
    windowEnd sizes budget start
        < windowEnd sizes budget (nextStart sizes budget overlap start)
      ↔ Leaves sizes budget overlap start := by
  have hle := @nextStart_le sizes budget overlap start
  show windowEnd sizes budget start + 1 ≤ _ ↔ _
  rw [le_windowEnd_iff (by omega), Leaves]
  omega

/-- A window of the run adds a row to those before it. -/
def Fresh (ws : List (Nat × Nat)) : Prop :=
  ∀ before w after, ws = before ++ w :: after → before ≠ [] →
    ∃ i, w.1 ≤ i ∧ i < w.2 ∧ ∀ w' ∈ before, ¬ (w'.1 ≤ i ∧ i < w'.2)

/-- Every window adds a row exactly when every window but the last leaves room for one. -/
theorem fresh_windowsFrom_iff (h : start < sizes.length) :
    Fresh (windowsFrom sizes budget overlap start)
      ↔ ∀ w ∈ windowsFrom sizes budget overlap start, w.2 < sizes.length →
        Leaves sizes budget overlap w.1 := by
  have hends := @snd_of_mem_windowsFrom _ budget overlap _ h
  have hchain := @windowsFrom_chain _ budget overlap _ h
  have hlast := @windowsFrom_getLast _ budget overlap _ h
  generalize windowsFrom sizes budget overlap start = ws at hends hchain hlast
  constructor
  · intro hfresh w hw hmore
    obtain ⟨before, after, rfl⟩ := List.append_of_mem hw
    obtain ⟨-, hin, hend⟩ := hends w hw
    cases after with
    | nil =>
      obtain ⟨x, hx, hxend⟩ := hlast
      rw [List.getLast?_concat] at hx
      obtain rfl := Option.some.inj hx
      omega
    | cons next rest =>
      obtain ⟨hnext, -⟩ := (List.isChain_cons_cons.mp (List.isChain_append.mp hchain).2.1).1
      obtain ⟨-, -, hnextEnd⟩ := hends next (by simp)
      -- the place only the next window has is past the end of this one
      obtain ⟨i, hi, hlt, hout⟩ := hfresh (before ++ [w]) next rest (by simp) (by simp)
      have hapart := hout w (by simp)
      have hafter := @lt_nextStart sizes budget overlap w.1 hin
      rw [← lt_windowEnd_iff (by omega), ← hnext, ← hnextEnd]
      omega
  · intro hleaves
    -- each window ends past the one before, so its last place is new
    have hgrow : ws.IsChain fun a b => a.2 < b.2 := by
      refine List.isChain_iff_getElem.mpr fun i hi => ?_
      obtain ⟨hnext, hmore⟩ := List.isChain_iff_getElem.mp hchain i hi
      have ha := hends ws[i] (List.getElem_mem _)
      have hb := hends ws[i + 1] (List.getElem_mem _)
      have hlt := (lt_windowEnd_iff (by omega)).mpr (hleaves ws[i] (List.getElem_mem _) hmore)
      rw [← hnext] at hlt
      omega
    intro before w after hsplit hne
    have hpair := List.isChain_iff_pairwise.mp hgrow
    rw [hsplit, List.pairwise_append] at hpair
    obtain ⟨-, hin, hend⟩ := hends w (by rw [hsplit]; simp)
    have hlt := lt_windowEnd hin budget
    refine ⟨w.2 - 1, by omega, by omega, fun w' hw' hcover => ?_⟩
    have hbefore := hpair.2.2 w' hw' w (List.mem_cons_self ..)
    omega

end OverlapWindows
