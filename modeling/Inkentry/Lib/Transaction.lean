/-
  Inkentry.Lib.Transaction

  Statements on a database connection, any of which can fail, and the
  transaction written by hand around them: BEGIN, the statements, then COMMIT or,
  after an error, ROLLBACK.

  A failing statement leaves the transaction open or takes it down with it, and
  a failing COMMIT does one of the two as well.  `effect` is what a program of
  statements writes when they work, and `Models` relates the two, step by step;
  `transaction_of_regular` reads the outcome of a whole transaction off the effect.
-/

import Mathlib.Logic.Basic

namespace Transaction

universe u v

variable {σ : Type u} {α β : Type v}

/-- How one statement ends.  `failed` undoes the statement and no more, so that a
    failed COMMIT leaves its transaction open; `rolledBack` undoes the transaction. -/
inductive Outcome where
  | done
  | failed
  | rolledBack
  deriving DecidableEq, Repr

/-- A connection: the state it reads, and the state its open transaction goes back to. -/
@[ext] structure Connection (σ : Type*) where
  db : σ
  saved : Option σ

namespace Connection

/-- A connection on which no transaction is open. -/
def idle (s : σ) : Connection σ := ⟨s, none⟩

def rollback (c : Connection σ) : Connection σ := idle (c.saved.getD c.db)

/-- BEGIN, which fails inside a transaction. -/
def start (outcome : Outcome) (c : Connection σ) : Option (Connection σ) :=
  match c.saved, outcome with
  | none, .done => some ⟨c.db, some c.db⟩
  | _, _ => none

/-- COMMIT, and whether it succeeded. -/
def commit (outcome : Outcome) (c : Connection σ) : Connection σ × Bool :=
  match outcome with
  | .done => (idle c.db, true)
  | .failed => (c, false)
  | .rolledBack => (c.rollback, false)

end Connection

open Connection

/-- A program of statements; `none` when one of them failed. -/
def Sql (σ : Type u) (α : Type v) := Connection σ → Connection σ × Option α

/-- What a program does to the tables when its statements work. -/
def Write (σ : Type u) (α : Type v) := σ → Option (σ × α)

namespace Write

def andThen (p : Write σ α) (q : α → Write σ β) : Write σ β := fun s =>
  (p s).bind fun r => q r.2 r.1

/-- A statement that only reads. -/
def read (f : σ → α) : Write σ α := fun s => some (s, f s)

/-- The write of a statement that ends with `outcome`. -/
def guarded (outcome : Outcome) (p : Write σ α) : Write σ α := fun s =>
  if outcome = .done then p s else none

instance : Monad (Write σ) where
  pure a := fun s => some (s, a)
  bind := andThen

theorem read_apply (f : σ → α) (s : σ) : read f s = some (s, f s) := rfl

theorem bind_eq_some_iff {p : Write σ α} {q : α → Write σ β} {s : σ} {r : σ × β} :
    (p >>= q) s = some r ↔ ∃ s' a, p s = some (s', a) ∧ q a s' = some r := by
  show ((p s).bind fun r => q r.2 r.1) = some r ↔ _
  simp only [Option.bind_eq_some_iff, Prod.exists]

theorem guarded_done (p : Write σ α) (s : σ) : guarded .done p s = p s := rfl

theorem guarded_eq_some_iff {outcome : Outcome} {p : Write σ α} {s : σ} {r : σ × α} :
    guarded outcome p s = some r ↔ outcome = .done ∧ p s = some r := by
  simp [guarded]

end Write

namespace Sql

variable {c c' : Connection σ}

instance : Monad (Sql σ) where
  pure a := fun c => (c, some a)
  bind x f := fun c =>
    match x c with
    | (c', some a) => f a c'
    | (c', none) => (c', none)

theorem bind_of_some {x : Sql σ α} {f : α → Sql σ β} {a : α}
    (h : x c = (c', some a)) : (x >>= f) c = f a c' := by
  show (match x c with
    | (c', some a) => f a c'
    | (c', none) => (c', none)) = f a c'
  rw [h]

theorem bind_of_none {x : Sql σ α} {f : α → Sql σ β}
    (h : x c = (c', none)) : (x >>= f) c = (c', none) := by
  show (match x c with
    | (c', some a) => f a c'
    | (c', none) => (c', none)) = (c', none)
  rw [h]

/-- One statement.  One the tables refuse is undone by itself. -/
def statement (outcome : Outcome) (write : Write σ α) : Sql σ α := fun c =>
  match outcome with
  | .done =>
    match write c.db with
    | some (s, a) => (⟨s, c.saved⟩, some a)
    | none => (c, none)
  | .failed => (c, none)
  | .rolledBack => (c.rollback, none)

/-- Statements that run only under a condition. -/
def onlyIf (cond : Prop) [Decidable cond] (x : Sql σ PUnit) : Sql σ PUnit := if cond then x else pure ⟨⟩

/-- BEGIN, the statements, COMMIT; after an error in the statements ROLLBACK, whose own
    error is ignored. -/
def transaction (beginning : Outcome) (body : Sql σ α) (ending : Outcome) : Sql σ α := fun c =>
  match c.start beginning with
  | none => (c, none)
  | some opened =>
    match body opened with
    | (c', some a) =>
      match c'.commit ending with
      | (closed, true) => (closed, some a)
      | (left, false) => (left, none)
    | (c', none) => (c'.rollback, none)

end Sql

open Sql

namespace Sql

theorem transaction_of_some {x : Sql σ α} {ending : Outcome} {s : σ} {c : Connection σ} {a : α}
    (h : x ⟨s, some s⟩ = (c, some a)) :
    transaction .done x ending (idle s) =
      ((c.commit ending).1, if (c.commit ending).2 then some a else none) := by
  show (match x ⟨s, some s⟩ with
    | (c', some a) => (match c'.commit ending with
      | (closed, true) => (closed, some a)
      | (left, false) => (left, none))
    | (c', none) => (c'.rollback, none)) = _
  rw [h]
  cases ending with
  | done => rfl
  | failed => rfl
  | rolledBack => rfl

theorem transaction_of_none {x : Sql σ α} {ending : Outcome} {s : σ} {c : Connection σ}
    (h : x ⟨s, some s⟩ = (c, none)) :
    transaction .done x ending (idle s) = (c.rollback, none) := by
  show (match x ⟨s, some s⟩ with
    | (c', some a) => (match c'.commit ending with
      | (closed, true) => (closed, some a)
      | (left, false) => (left, none))
    | (c', none) => (c'.rollback, none)) = _
  rw [h]

end Sql

/-! ## What a program performs -/

variable {x : Sql σ α}
variable {p : Write σ α} {f : α → Sql σ β}
variable {s : σ}

/-- What the statements write when each is committed by itself; `none` when one fails. -/
def Sql.effect (x : Sql σ α) : Write σ α := fun s =>
  match x (idle s) with
  | (c, some a) => some (c.db, a)
  | (_, none) => none

/-- The statements perform `p`, and where `p` fails they leave something a ROLLBACK undoes. -/
structure Models (x : Sql σ α) (p : Write σ α) : Prop where
  performs : ∀ s saved s' a, p s = some (s', a) → x ⟨s, saved⟩ = (⟨s', saved⟩, some a)
  undoes : ∀ s saved, p s = none →
    ∃ c, x ⟨s, saved⟩ = (c, none) ∧ ∀ s₀ ∈ saved, c.rollback = idle s₀

theorem Models.effect_eq (h : Models x p) : x.effect = p := by
  funext s
  cases hp : p s with
  | some r =>
    have hx : x (idle s) = (⟨r.1, none⟩, some r.2) := h.performs s none r.1 r.2 hp
    simp only [Sql.effect, hx]
  | none =>
    obtain ⟨c, hc, -⟩ := h.undoes s none hp
    have hx : x (idle s) = (c, none) := hc
    simp only [Sql.effect, hx]

/-- The statements perform their effect inside a transaction too. -/
def Regular (x : Sql σ α) : Prop := Models x x.effect

theorem Models.regular (h : Models x p) : Regular x := by
  rw [Regular, h.effect_eq]
  exact h

theorem models_pure (a : α) : Models (pure a : Sql σ α) (pure a : Write σ α) where
  performs s saved s' b h := by
    obtain ⟨rfl, rfl⟩ := Prod.mk.inj (Option.some.inj h)
    rfl
  undoes s saved h := absurd h (Option.some_ne_none _)

theorem models_statement (outcome : Outcome) (p : Write σ α) :
    Models (statement outcome p) (Write.guarded outcome p) where
  performs s saved s' a h := by
    obtain ⟨rfl, hp⟩ := Write.guarded_eq_some_iff.mp h
    simp only [statement, hp]
  undoes s saved h := by
    -- an open transaction still goes back to where it began
    have hopen : ∀ s₀ ∈ saved, (⟨s, saved⟩ : Connection σ).rollback = idle s₀ := by
      rintro s₀ rfl
      rfl
    cases outcome with
    | done =>
      have hp : p s = none := by simpa [Write.guarded] using h
      exact ⟨⟨s, saved⟩, by simp only [statement, hp], hopen⟩
    | failed => exact ⟨⟨s, saved⟩, rfl, hopen⟩
    | rolledBack => exact ⟨(⟨s, saved⟩ : Connection σ).rollback, rfl, hopen⟩

theorem Models.bind {q : α → Write σ β} (hx : Models x p)
    (hf : ∀ a, Models (f a) (q a)) : Models (x >>= f) (p >>= q) where
  performs s saved s' b h := by
    obtain ⟨s₁, a, hp, hq⟩ := Write.bind_eq_some_iff.mp h
    rw [bind_of_some (hx.performs s saved s₁ a hp)]
    exact (hf a).performs s₁ saved s' b hq
  undoes s saved h := by
    cases hp : p s with
    | none =>
      obtain ⟨c, hc, hback⟩ := hx.undoes s saved hp
      exact ⟨c, bind_of_none hc, hback⟩
    | some r =>
      have hq : q r.2 r.1 = none := by
        have hbind : ((p s).bind fun r => q r.2 r.1) = none := h
        rwa [hp] at hbind
      obtain ⟨c, hc, hback⟩ := (hf r.2).undoes r.1 saved hq
      exact ⟨c, (bind_of_some (hx.performs s saved r.1 r.2 hp)).trans hc, hback⟩

theorem Regular.bind (hx : Regular x)
    (hf : ∀ a, Regular (f a)) : Regular (x >>= f) := (Models.bind hx hf).regular

theorem bind_pure_fst (x : Sql σ α) (g : α → β) (c : Connection σ) :
    ((x >>= fun a => pure (g a)) c).1 = (x c).1 := by
  cases hr : (x c).2 with
  | none => rw [bind_of_none (Prod.ext rfl hr : x c = ((x c).1, none))]
  | some a =>
    rw [bind_of_some (Prod.ext rfl hr : x c = ((x c).1, some a))]
    rfl

/-- An answer computed from a program's answer comes from an answer of the program. -/
theorem exists_of_bind_pure {g : α → β} {c c' : Connection σ} {b : β}
    (h : (x >>= fun a => pure (g a)) c = (c', some b)) : ∃ a, x c = (c', some a) ∧ g a = b := by
  cases hr : (x c).2 with
  | none =>
    rw [bind_of_none (Prod.ext rfl hr : x c = ((x c).1, none))] at h
    exact absurd (Prod.mk.inj h).2.symm (Option.some_ne_none b)
  | some a =>
    have hx : x c = ((x c).1, some a) := Prod.ext rfl hr
    rw [bind_of_some hx] at h
    obtain ⟨hc, hb⟩ := Prod.mk.inj h
    exact ⟨a, hx.trans (congrArg (fun d => (d, some a)) hc), Option.some.inj hb⟩

theorem regular_pure (a : α) : Regular (pure a : Sql σ α) := (models_pure a).regular

theorem regular_statement (outcome : Outcome) (p : Write σ α) : Regular (statement outcome p) :=
  (models_statement outcome p).regular

theorem Regular.onlyIf {x : Sql σ PUnit} (hx : Regular x) (cond : Prop) [Decidable cond] :
    Regular (Sql.onlyIf cond x) := by
  unfold Sql.onlyIf
  split
  · exact hx
  · exact regular_pure _

theorem effect_pure (a : α) (s : σ) : (pure a : Sql σ α).effect s = some (s, a) := rfl

theorem effect_statement_eq_some_iff {outcome : Outcome} {r : σ × α} :
    (statement outcome p).effect s = some r ↔ outcome = .done ∧ p s = some r := by
  rw [(models_statement outcome p).effect_eq]
  exact Write.guarded_eq_some_iff

theorem effect_onlyIf_eq_some_iff {cond : Prop} [Decidable cond] {x : Sql σ PUnit} {s s' : σ} :
    (Sql.onlyIf cond x).effect s = some (s', ⟨⟩) ↔
      if cond then x.effect s = some (s', ⟨⟩) else s = s' := by
  unfold Sql.onlyIf
  split
  · exact Iff.rfl
  · rw [effect_pure, Option.some_inj, Prod.mk.injEq]
    exact and_iff_left rfl

theorem effect_bind_eq_some_iff (hx : Regular x) (hf : ∀ a, Regular (f a)) {r : σ × β} :
    (x >>= f).effect s = some r ↔ ∃ s' a, x.effect s = some (s', a) ∧ (f a).effect s' = some r := by
  rw [(Models.bind hx hf).effect_eq]
  exact Write.bind_eq_some_iff

theorem effect_bind_isSome (hx : Regular x) (hf : ∀ a, Regular (f a)) {s s' : σ} {a : α}
    (h : x.effect s = some (s', a))
    (hrest : ∃ r, (f a).effect s' = some r) : ∃ r, (x >>= f).effect s = some r := by
  obtain ⟨r, hr⟩ := hrest
  exact ⟨r, (effect_bind_eq_some_iff hx hf).mpr ⟨s', a, h, hr⟩⟩

/-! ## Outside a transaction -/

/-- Outside a transaction every statement is committed by itself, and however the program
    ends, the tables it leaves are related to the ones it found. -/
def Along (R : σ → σ → Prop) (x : Sql σ α) : Prop :=
  ∀ s, ∃ s', (x (idle s)).1 = idle s' ∧ R s s'

section Along

variable {R : σ → σ → Prop}

theorem along_pure (hrefl : ∀ s, R s s) (a : α) : Along R (pure a : Sql σ α) :=
  fun s => ⟨s, rfl, hrefl s⟩

theorem along_statement (hrefl : ∀ s, R s s) (outcome : Outcome) {p : Write σ α}
    (hp : ∀ s s' a, p s = some (s', a) → R s s') : Along R (statement outcome p) := by
  intro s
  cases outcome with
  | done =>
    cases h : p s with
    | none => exact ⟨s, by simp only [statement, idle, h], hrefl s⟩
    | some r => exact ⟨r.1, by simp only [statement, idle, h], hp s r.1 r.2 h⟩
  | failed => exact ⟨s, rfl, hrefl s⟩
  | rolledBack => exact ⟨s, rfl, hrefl s⟩

theorem exists_of_bind {x : Sql σ α} {f : α → Sql σ β} (hrefl : ∀ s, R s s)
    (hf : ∀ a, Along R (f a)) {s s' : σ} (hx : (x (idle s)).1 = idle s') :
    ∃ s'', ((x >>= f) (idle s)).1 = idle s'' ∧ R s' s'' := by
  cases hr : (x (idle s)).2 with
  | none =>
    have heq : x (idle s) = (idle s', none) := Prod.ext hx hr
    exact ⟨s', by rw [bind_of_none heq], hrefl s'⟩
  | some a =>
    have heq : x (idle s) = (idle s', some a) := Prod.ext hx hr
    obtain ⟨s'', hlast, hR⟩ := hf a s'
    exact ⟨s'', by rw [bind_of_some heq, hlast], hR⟩

theorem Along.bind {x : Sql σ α} {f : α → Sql σ β} (hrefl : ∀ s, R s s)
    (htrans : ∀ s s' s'', R s s' → R s' s'' → R s s'') (hx : Along R x)
    (hf : ∀ a, Along R (f a)) : Along R (x >>= f) := by
  intro s
  obtain ⟨s', hleft, hR⟩ := hx s
  obtain ⟨s'', hlast, hR'⟩ := exists_of_bind hrefl hf hleft
  exact ⟨s'', hlast, htrans s s' s'' hR hR'⟩

theorem Along.onlyIf (hrefl : ∀ s, R s s) {x : Sql σ PUnit} (hx : Along R x) (cond : Prop)
    [Decidable cond] : Along R (Sql.onlyIf cond x) := by
  unfold Sql.onlyIf
  split
  · exact hx
  · exact along_pure hrefl _

end Along

theorem statement_of_refused {outcome : Outcome}
    (h : ¬ (outcome = .done ∧ ∃ r, p s = some r))
    : statement outcome p (idle s) = (idle s, none) := by
  cases outcome with
  | done =>
    have hp : p s = none := by
      cases hr : p s with
      | none => rfl
      | some r => exact absurd ⟨rfl, r, hr⟩ h
    show (match p s with
      | some (s', a) => ((⟨s', none⟩ : Connection σ), some a)
      | none => (idle s, none)) = (idle s, none)
    rw [hp]
  | failed => rfl
  | rolledBack => rfl

theorem statement_of_some {r : σ × α} (h : p s = some r) :
    statement .done p (idle s) = (idle r.1, some r.2) := by
  show (match p s with
    | some (s', a) => ((⟨s', none⟩ : Connection σ), some a)
    | none => (idle s, none)) = (idle r.1, some r.2)
  rw [h]
  rfl

theorem run_idle_of_effect (h : Regular x) {s s' : σ} {a : α}
    (heffect : x.effect s = some (s', a)) : x (idle s) = (idle s', some a) :=
  h.performs s none s' a heffect

theorem run_idle_of_effect_none (h : Regular x)
    (heffect : x.effect s = none) : (x (idle s)).2 = none := by
  obtain ⟨c, hc, -⟩ := h.undoes s none heffect
  have hrun : x (idle s) = (c, none) := hc
  rw [hrun]

/-! ## A whole transaction -/

/-- A transaction from an idle connection: the tables are untouched when it does not begin
    or a statement fails, and else its COMMIT decides. -/
theorem transaction_of_regular (h : Regular x) (beginning ending : Outcome) (s : σ) :
    transaction beginning x ending (idle s) =
      match Write.guarded beginning x.effect s, ending with
      | none, _ => (idle s, none)
      | some (s', a), .done => (idle s', some a)
      | some (s', _), .failed => (⟨s', some s⟩, none)
      | some _, .rolledBack => (idle s, none) := by
  cases beginning with
  | failed => rfl
  | rolledBack => rfl
  | done =>
    have hguard : Write.guarded .done x.effect s = x.effect s := Write.guarded_done _ _
    rw [hguard]
    cases hp : x.effect s with
    | none =>
      obtain ⟨c, hc, hback⟩ := h.undoes s (some s) hp
      rw [transaction_of_none hc, hback s rfl]
    | some r =>
      rw [transaction_of_some (h.performs s (some s) r.1 r.2 hp)]
      cases ending with
      | done => rfl
      | failed => rfl
      | rolledBack => rfl

end Transaction
