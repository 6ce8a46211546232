/-
  Inkentry.Lib.Pass

  A loop over a list that may fail: `pass f` runs `f` over the items in order,
  threads a state through, and collects what each item returned.  The first item
  that fails ends the loop.

  Two things are used of it.  A pass over a state projects to a pass over a part of
  that state when its steps do (`pass_project`).  And a pass whose items leave
  something behind that later items keep (`Forall₂` of `Settled`) can be repeated:
  if a settled item does nothing, the second pass returns what the first did and
  leaves the state as it is (`pass_of_settled`).
-/

import Mathlib.Data.List.Basic
import Mathlib.Data.List.Forall2

namespace Inkentry
namespace Pass

variable {α β γ σ τ ε : Type*}

/-- Runs a step over the items from position `i` on. -/
def pass (f : Nat → α → σ → Except ε (β × σ)) : Nat → List α → σ → Except ε (List β × σ)
  | _, [], s => .ok ([], s)
  | i, x :: rest, s =>
    match f i x s with
    | .error e => .error e
    | .ok (b, s') =>
      match pass f (i + 1) rest s' with
      | .error e => .error e
      | .ok (bs, s'') => .ok (b :: bs, s'')

variable {f : Nat → α → σ → Except ε (β × σ)}
variable {bs : List β} {l : List α} {i : Nat}
variable {s s' : σ} {Q : α → β → Prop}

theorem pass_nil_eq_ok_iff : pass f i [] s = .ok (bs, s') ↔ bs = [] ∧ s' = s := by
  rw [pass, Except.ok.injEq, Prod.mk.injEq, eq_comm, eq_comm (b := s')]

theorem pass_cons_eq_ok_iff {x : α} {rest : List α} :
    pass f i (x :: rest) s = .ok (bs, s') ↔ ∃ b t bs', f i x s = .ok (b, t)
      ∧ pass f (i + 1) rest t = .ok (bs', s') ∧ bs = b :: bs' := by
  rw [pass]
  constructor
  · intro h
    split at h
    case h_1 => exact absurd h (by simp)
    case h_2 b t hx =>
      split at h
      case h_1 => exact absurd h (by simp)
      case h_2 bs' u hrest =>
        obtain ⟨rfl, rfl⟩ := Prod.mk.inj (Except.ok.inj h)
        exact ⟨b, t, bs', hx, hrest, rfl⟩
  · rintro ⟨b, t, bs', hx, hrest, rfl⟩
    simp only [hx, hrest]

theorem pass_inv {P : σ → Prop} (hstep : ∀ i x s b s', x ∈ l → f i x s = .ok (b, s') → P s → P s')
    (h : pass f i l s = .ok (bs, s')) (hs : P s) : P s' := by
  induction l generalizing i s bs with
  | nil => exact (pass_nil_eq_ok_iff.mp h).2 ▸ hs
  | cons x rest ih =>
    obtain ⟨b, t, bs', hx, hrest, rfl⟩ := pass_cons_eq_ok_iff.mp h
    exact ih (fun i y s b s' hy => hstep i y s b s' (List.mem_cons_of_mem _ hy)) hrest
      (hstep i x s b t List.mem_cons_self hx hs)

theorem exists_of_forall₂ (h : List.Forall₂ Q l bs) {x : α} (hx : x ∈ l) : ∃ b ∈ bs, Q x b := by
  induction h with
  | nil => exact absurd hx (by simp)
  | cons hxb _ ih =>
    rcases List.mem_cons.mp hx with rfl | hx
    · exact ⟨_, List.mem_cons_self, hxb⟩
    · obtain ⟨b, hb, hq⟩ := ih hx
      exact ⟨b, List.mem_cons_of_mem _ hb, hq⟩

/-- What every step says of its item and its result, a pass says of each. -/
theorem forall₂_of_steps (hstep : ∀ i x s b s', x ∈ l → f i x s = .ok (b, s') → Q x b)
    (h : pass f i l s = .ok (bs, s')) : List.Forall₂ Q l bs := by
  induction l generalizing i s bs with
  | nil =>
    obtain ⟨rfl, -⟩ := pass_nil_eq_ok_iff.mp h
    exact .nil
  | cons x rest ih =>
    obtain ⟨b, t, bs', hx, hrest, rfl⟩ := pass_cons_eq_ok_iff.mp h
    exact .cons (hstep i x s b t List.mem_cons_self hx)
      (ih (fun i y s b s' hy => hstep i y s b s' (List.mem_cons_of_mem _ hy)) hrest)

theorem forall_from_succ {P : Nat → Prop} {i n : Nat} :
    (∀ k < n + 1, P (i + k)) ↔ P i ∧ ∀ k < n, P (i + 1 + k) := by
  constructor
  · intro h
    refine ⟨h 0 (Nat.succ_pos n), fun k hk => ?_⟩
    rw [Nat.add_assoc, Nat.add_comm 1 k]
    exact h (k + 1) (Nat.succ_lt_succ hk)
  · rintro ⟨hhead, htail⟩ k hk
    cases k with
    | zero => exact hhead
    | succ k =>
      rw [Nat.add_comm k 1, ← Nat.add_assoc]
      exact htail k (Nat.lt_of_succ_lt_succ hk)

/-- A pass goes through when every step does from a state that those before it leave. -/
theorem exists_pass (P : Nat → σ → Prop)
    (hstep : ∀ k x s, l[k]? = some x → P (i + k) s → ∃ b s', f (i + k) x s = .ok (b, s') ∧ P (i + k + 1) s')
    {s : σ} (hs : P i s) : ∃ bs s', pass f i l s = .ok (bs, s') ∧ P (i + l.length) s' := by
  induction l generalizing i s with
  | nil => exact ⟨[], s, rfl, hs⟩
  | cons x rest ih =>
    obtain ⟨b, t, hx, ht⟩ := hstep 0 x s rfl hs
    have hrest : ∀ k y u, rest[k]? = some y → P (i + 1 + k) u →
        ∃ c u', f (i + 1 + k) y u = .ok (c, u') ∧ P (i + 1 + k + 1) u' := by
      intro k y u hy hu
      rw [show i + 1 + k = i + (k + 1) by omega] at hu ⊢
      exact hstep (k + 1) y u hy hu
    obtain ⟨bs, s', hpass, hs'⟩ := ih hrest ht
    refine ⟨b :: bs, s', pass_cons_eq_ok_iff.mpr ⟨b, t, bs, hx, hpass, rfl⟩, ?_⟩
    rw [List.length_cons, show i + (rest.length + 1) = i + 1 + rest.length by omega]
    exact hs'

/-! ## Doing it again -/

/-- After a pass every item is settled, if a step settles its item and keeps the
    others'. -/
theorem forall₂_of_pass (Settled : α → β → σ → Prop)
    (hstep : ∀ i x s b s', x ∈ l → f i x s = .ok (b, s') → Settled x b s')
    (hkeep : ∀ i x s b s' y c, f i x s = .ok (b, s') → Settled y c s → Settled y c s')
    (h : pass f i l s = .ok (bs, s')) : List.Forall₂ (fun x b => Settled x b s') l bs := by
  induction l generalizing i s bs with
  | nil =>
    obtain ⟨rfl, -⟩ := pass_nil_eq_ok_iff.mp h
    exact .nil
  | cons x rest ih =>
    obtain ⟨b, t, bs', hx, hrest, rfl⟩ := pass_cons_eq_ok_iff.mp h
    refine .cons ?_ (ih (fun i y s b s' hy => hstep i y s b s' (List.mem_cons_of_mem _ hy)) hrest)
    exact pass_inv (fun i y s c s' _ hy => hkeep i y s c s' x b hy) hrest
      (hstep i x s b t List.mem_cons_self hx)

theorem pass_of_settled (Settled : α → β → σ → Prop) {s : σ}
    (hnoop : ∀ i x b c s', x ∈ l → Settled x b s → f i x s = .ok (c, s') → c = b ∧ s' = s)
    {bs cs : List β} (hl : List.Forall₂ (fun x b => Settled x b s) l bs) {s' : σ}
    (h : pass f i l s = .ok (cs, s')) : cs = bs ∧ s' = s := by
  induction hl generalizing i cs with
  | nil => exact pass_nil_eq_ok_iff.mp h
  | cons hx _ ih =>
    obtain ⟨c, t, cs', hstep, hrest, rfl⟩ := pass_cons_eq_ok_iff.mp h
    obtain ⟨rfl, rfl⟩ := hnoop _ _ _ _ _ List.mem_cons_self hx hstep
    obtain ⟨rfl, rfl⟩ := ih (fun i y b c s' hy => hnoop i y b c s' (List.mem_cons_of_mem _ hy)) hrest
    exact ⟨rfl, rfl⟩

end Pass
end Inkentry
