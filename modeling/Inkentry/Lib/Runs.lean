/-
  Inkentry.Lib.Runs

  Runs of a deterministic system: a state, a list of labels, and a step
  function.  Whatever a step leaves open (a clock reading, the order a merge
  puts lines in) is part of its label, so a run is a list.

  `EachStep` says that something holds of every step of a run, in the state the
  step is taken in; `EachState` that something holds of every state reached.
  The two rules are the invariant rule (`run_inv`, `eachState_of_inv`) and the
  transfer of a fact about single steps to runs (`eachStep_congr`).
-/

import Mathlib.Data.List.Infix

namespace Runs

variable {σ ι : Type*} (step : σ → ι → σ)

/-! ## Runs -/

variable {P : σ → ι → Prop}

/-- The state a run ends in. -/
def run (s : σ) (labels : List ι) : σ := labels.foldl step s

@[simp] theorem run_nil (s : σ) : run step s [] = s := rfl

@[simp] theorem run_cons (s : σ) (i : ι) (labels : List ι) :
    run step s (i :: labels) = run step (step s i) labels := rfl

theorem run_append (s : σ) (labels labels' : List ι) :
    run step s (labels ++ labels') = run step (run step s labels) labels' :=
  List.foldl_append

/-- `P` holds of every step, in the state the step is taken in. -/
def EachStep (P : σ → ι → Prop) : σ → List ι → Prop
  | _, [] => True
  | s, i :: labels => P s i ∧ EachStep P (step s i) labels

/-- `P` holds of every state reached, the first included. -/
def EachState (P : σ → Prop) : σ → List ι → Prop
  | s, [] => P s
  | s, i :: labels => P s ∧ EachState P (step s i) labels

instance EachStep.decidable (P : σ → ι → Prop) [∀ s i, Decidable (P s i)] :
    ∀ (s : σ) (labels : List ι), Decidable (EachStep step P s labels)
  | _, [] => isTrue trivial
  | s, i :: labels =>
    have := EachStep.decidable P (step s i) labels
    inferInstanceAs (Decidable (P s i ∧ EachStep step P (step s i) labels))

theorem EachState.head {P : σ → Prop} {s : σ} {labels : List ι}
    (h : EachState step P s labels) : P s := by
  cases labels with
  | nil => exact h
  | cons i labels => exact h.1

theorem EachState.last {P : σ → Prop} {s : σ} {labels : List ι}
    (h : EachState step P s labels) : P (run step s labels) := by
  induction labels generalizing s with
  | nil => exact h
  | cons i labels ih => exact ih h.2

theorem eachStep_append {s : σ} {labels labels' : List ι} :
    EachStep step P s (labels ++ labels')
      ↔ EachStep step P s labels ∧ EachStep step P (run step s labels) labels' := by
  induction labels generalizing s with
  | nil => simp [EachStep]
  | cons i labels ih => simp only [List.cons_append, EachStep, run_cons, ih, and_assoc]

theorem EachStep.imp {P Q : σ → ι → Prop} (hpq : ∀ s i, P s i → Q s i) {s : σ}
    {labels : List ι} (h : EachStep step P s labels) : EachStep step Q s labels := by
  induction labels generalizing s with
  | nil => trivial
  | cons i labels ih => exact ⟨hpq _ _ h.1, ih h.2⟩

theorem EachStep.and {P Q : σ → ι → Prop} {s : σ} {labels : List ι} (hp : EachStep step P s labels)
    (hq : EachStep step Q s labels) : EachStep step (fun s i => P s i ∧ Q s i) s labels := by
  induction labels generalizing s with
  | nil => trivial
  | cons i labels ih => exact ⟨⟨hp.1, hq.1⟩, ih hp.2 hq.2⟩

theorem EachStep.take {s : σ} {labels : List ι} (h : EachStep step P s labels)
    (k : ℕ) : EachStep step P s (labels.take k) := by
  rw [← List.take_append_drop k labels, eachStep_append] at h
  exact h.1

theorem eachStep_of_forall {labels : List ι} (h : ∀ i ∈ labels, ∀ s, P s i)
    (s : σ) : EachStep step P s labels := by
  induction labels generalizing s with
  | nil => trivial
  | cons i labels ih =>
    exact ⟨h i List.mem_cons_self s, ih (fun j hj => h j (List.mem_cons_of_mem i hj)) _⟩

theorem EachState.imp {P Q : σ → Prop} {s : σ} {labels : List ι}
    (h : EachState step P s labels) (hpq : ∀ s, P s → Q s) : EachState step Q s labels := by
  induction labels generalizing s with
  | nil => exact hpq s h
  | cons i labels ih => exact ⟨hpq s h.1, ih h.2⟩

/-! ## The invariant rule -/

section Invariant

variable {step} {Inv : σ → Prop} {Legal : σ → ι → Prop}
variable {Good : σ → ι → Prop}

theorem run_inv (hinv : ∀ s i, Inv s → Legal s i → Inv (step s i)) {s : σ} {labels : List ι}
    (hs : Inv s) (hlegal : EachStep step Legal s labels) : Inv (run step s labels) := by
  induction labels generalizing s with
  | nil => exact hs
  | cons i labels ih => exact ih (hinv s i hs hlegal.1) hlegal.2

/-- What every legal step preserves holds in every state of a legal run. -/
theorem eachState_of_inv (hinv : ∀ s i, Inv s → Legal s i → Inv (step s i)) {s : σ}
    {labels : List ι} (hs : Inv s) (hlegal : EachStep step Legal s labels) :
    EachState step Inv s labels := by
  induction labels generalizing s with
  | nil => exact hs
  | cons i labels ih => exact ⟨hs, ih (hinv s i hs hlegal.1) hlegal.2⟩

/-- Facts that agree on legal steps from invariant states agree on legal runs. -/
theorem eachStep_congr {P Q : σ → ι → Prop} (hinv : ∀ s i, Inv s → Legal s i → Inv (step s i))
    (hpq : ∀ s i, Inv s → Legal s i → (P s i ↔ Q s i)) {s : σ} {labels : List ι} (hs : Inv s)
    (hlegal : EachStep step Legal s labels) :
    EachStep step P s labels ↔ EachStep step Q s labels := by
  induction labels generalizing s with
  | nil => exact Iff.rfl
  | cons i labels ih =>
    exact and_congr (hpq s i hs hlegal.1) (ih (hinv s i hs hlegal.1) hlegal.2)

/-- Where `P` follows from an invariant that good legal steps keep, and every other
    legal step breaks `P`, a legal run shows `P` throughout exactly when its steps
    are good. -/
theorem eachState_iff_eachStep_of_legal {P : σ → Prop} (Inv : σ → Prop)
    (hinv : ∀ s i, Inv s → Legal s i → Good s i → Inv (step s i)) (hP : ∀ s, Inv s → P s)
    (hbad : ∀ s i, Inv s → Legal s i → ¬ Good s i → ¬ P (step s i)) {s : σ} {labels : List ι}
    (hs : Inv s) (hlegal : EachStep step Legal s labels) :
    EachState step P s labels ↔ EachStep step Good s labels := by
  induction labels generalizing s with
  | nil => exact iff_of_true (hP s hs) trivial
  | cons i labels ih =>
    by_cases hgood : Good s i
    · have hnext := ih (hinv s i hs hlegal.1 hgood) hlegal.2
      exact ⟨fun h => ⟨hgood, hnext.mp h.2⟩, fun h => ⟨hP s hs, hnext.mpr h.2⟩⟩
    · exact iff_of_false (fun h => hbad s i hs hlegal.1 hgood (EachState.head step h.2))
        fun h => hgood h.1

theorem eachStep_true (s : σ) (labels : List ι) : EachStep step (fun _ _ => True) s labels := by
  induction labels generalizing s with
  | nil => trivial
  | cons i labels ih => exact ⟨trivial, ih (step s i)⟩

theorem eachState_iff_eachStep {P : σ → Prop} (Inv : σ → Prop)
    (hinv : ∀ s i, Inv s → Good s i → Inv (step s i)) (hP : ∀ s, Inv s → P s)
    (hbad : ∀ s i, Inv s → ¬ Good s i → ¬ P (step s i)) {s : σ} {labels : List ι} (hs : Inv s) :
    EachState step P s labels ↔ EachStep step Good s labels :=
  eachState_iff_eachStep_of_legal Inv (fun s i h _ => hinv s i h) hP (fun s i h _ => hbad s i h) hs
    (eachStep_true s labels)

end Invariant

/-! ## Runs on an endless input -/

/-- The state after the first `n` labels of a sequence. -/
def after (s : σ) (labels : ℕ → ι) : ℕ → σ
  | 0 => s
  | n + 1 => step (after s labels n) (labels n)

section After

variable {step} {s : σ} {labels : ℕ → ι}

theorem after_inv {Inv : σ → Prop} (hinv : ∀ s i, Inv s → Inv (step s i)) (hs : Inv s) (n : ℕ) :
    Inv (after step s labels n) := by
  induction n with
  | zero => exact hs
  | succ n ih => exact hinv _ _ ih

/-- Once a state is reached that no step changes, the run stays there. -/
theorem after_of_halted {Halted : σ → Prop} (hstay : ∀ s i, Halted s → step s i = s) {n : ℕ}
    (h : Halted (after step s labels n)) {m : ℕ} (hnm : n ≤ m) :
    after step s labels m = after step s labels n := by
  induction m, hnm using Nat.le_induction with
  | base => rfl
  | succ m _ ih =>
    show step (after step s labels m) (labels m) = _
    rw [ih, hstay _ _ h]

/-- A run whose steps lower a measure until it halts does halt, within the measure's first
value. -/
theorem exists_halted {Inv Halted : σ → Prop} {measure : σ → ℕ}
    (hinv : ∀ s i, Inv s → Inv (step s i))
    (hdec : ∀ s i, Inv s → ¬ Halted s → measure (step s i) < measure s) (hs : Inv s) :
    ∃ n ≤ measure s, Halted (after step s labels n) := by
  by_contra hnever
  -- as long as nothing halts, every step costs one
  have hcost : ∀ n ≤ measure s + 1, measure (after step s labels n) + n ≤ measure s := by
    intro n
    induction n with
    | zero =>
      intro _
      exact le_rfl
    | succ n ih =>
      intro hn
      have hmoves : ¬ Halted (after step s labels n) := fun h => hnever ⟨n, by omega, h⟩
      have hlt := hdec _ (labels n) (after_inv hinv hs n) hmoves
      have hn' := ih (by omega)
      show measure (step (after step s labels n) (labels n)) + (n + 1) ≤ measure s
      omega
  have := hcost (measure s + 1) le_rfl
  omega

end After

end Runs
