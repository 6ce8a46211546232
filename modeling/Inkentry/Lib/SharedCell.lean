/-
  Inkentry.Lib.SharedCell

  One stored value that many processes edit without a lock: an operation reads
  the value whole, and writes what it makes of it back whole, later.

  An operation that finds the value as it read it, or that does not look at it,
  acts on the stored value in one piece.  A run in which all writes do so leaves
  what the completed operations make of the first value in order
  (`value_eq_serial`).
-/

import Mathlib.Logic.Function.Basic
import Inkentry.Lib.Runs

namespace SharedCell

open Runs

variable {ι ν : Type*} {Op : Type*} [DecidableEq ι] (apply : Op → ν → Option ν)

/-- The stored value, the operations between their read and their write with what they
    read, and the operations that have completed, in order. -/
structure World (ι ν Op : Type*) where
  value : ν
  pending : ι → Option (Op × ν)
  completed : List Op

def World.start (ι Op : Type*) {ν : Type*} (v : ν) : World ι ν Op := ⟨v, fun _ => none, []⟩

inductive Label (ι Op : Type*) where
  /-- A process begins an operation; one that has nothing to write completes. -/
  | read (i : ι) (op : Op)
  | write (i : ι)
  /-- A process gives its operation up. -/
  | fail (i : ι)

def step (w : World ι ν Op) : Label ι Op → World ι ν Op
  | .read i op =>
    match w.pending i with
    | some _ => w
    | none =>
      match apply op w.value with
      | some _ => { w with pending := Function.update w.pending i (some (op, w.value)) }
      | none => { w with completed := w.completed ++ [op] }
  | .write i =>
    match w.pending i with
    | none => w
    | some (op, seen) =>
      { value := (apply op seen).getD w.value
        pending := Function.update w.pending i none
        completed := w.completed ++ [op] }
  | .fail i => { w with pending := Function.update w.pending i none }

/-- The operations one after another, each in one piece. -/
def serial (v : ν) (ops : List Op) : ν := ops.foldl (fun v op => (apply op v).getD v) v

/-- A write finds the value as it was read, or is of an operation that does not look. -/
def Current (w : World ι ν Op) : Label ι Op → Prop
  | .write i => ∀ p ∈ w.pending i, p.2 = w.value ∨ ∀ v v', apply p.1 v = apply p.1 v'
  | .read .. | .fail _ => True

theorem serial_concat (v : ν) (ops : List Op) (op : Op) :
    serial apply v (ops ++ [op]) = (apply op (serial apply v ops)).getD (serial apply v ops) := by
  simp [serial]

/-- A step either leaves the value and the completed operations alone, or completes one
    operation in one piece. -/
theorem step_cases {w : World ι ν Op} {label : Label ι Op} (h : Current apply w label) :
    ((step apply w label).value = w.value ∧ (step apply w label).completed = w.completed)
    ∨ ∃ op, (step apply w label).value = (apply op w.value).getD w.value
      ∧ (step apply w label).completed = w.completed ++ [op]
      ∧ ((∃ i, label = .read i op ∧ apply op w.value = none)
        ∨ ∃ i seen, label = .write i ∧ w.pending i = some (op, seen)) := by
  cases label with
  | read i op =>
    rw [step]
    cases w.pending i with
    | some p => exact .inl ⟨rfl, rfl⟩
    | none =>
      cases happly : apply op w.value with
      | some v => exact .inl ⟨rfl, rfl⟩
      | none => exact .inr ⟨op, by rw [happly]; rfl, rfl, .inl ⟨i, rfl, happly⟩⟩
  | write i =>
    rw [step]
    cases hpending : w.pending i with
    | none => exact .inl ⟨rfl, rfl⟩
    | some p =>
      obtain ⟨op, seen⟩ := p
      refine .inr ⟨op, ?_, rfl, .inr ⟨i, seen, rfl, hpending⟩⟩
      have hsame : apply op seen = apply op w.value := by
        rcases h (op, seen) hpending with heq | hblind
        · rw [← heq]
        · exact hblind _ _
      show (apply op seen).getD w.value = _
      rw [hsame]
  | fail i => exact .inl ⟨rfl, rfl⟩

theorem value_eq_serial {w : World ι ν Op} {v : ν} (hw : w.value = serial apply v w.completed)
    {label : Label ι Op} (h : Current apply w label) :
    (step apply w label).value = serial apply v (step apply w label).completed := by
  rcases step_cases apply h with ⟨hvalue, hcompleted⟩ | ⟨op, hvalue, hcompleted, -⟩
  · rw [hvalue, hcompleted, hw]
  · rw [hvalue, hcompleted, serial_concat, hw]

end SharedCell
