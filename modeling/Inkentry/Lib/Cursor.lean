/-
  Inkentry.Lib.Cursor

  Reading a growing, ordered feed through a cursor.

  A reader keeps the largest id it has passed, and asks for what lies after it.
  `Covers` is what makes that sound: every live id at or below the cursor is
  one the reader has.  It survives everything but an id that arrives behind the
  cursor and a cursor moved by something other than reading, and reading a page
  keeps it as long as the page skips nothing (`GapFree`).
-/

import Mathlib.Data.List.Basic
import Mathlib.Order.Lattice

namespace Cursor

variable {ι : Type*} [LinearOrder ι] {live live' has has' : ι → Prop} {cursor : Option ι}

/-- Every live id at or below the cursor is one the reader has. -/
def Covers (live has : ι → Prop) (cursor : Option ι) : Prop :=
  ∀ x, live x → ∀ c ∈ cursor, x ≤ c → has x

/-- Every live id at or below one on the page is on the page, or one the reader has. -/
def GapFree (live has : ι → Prop) (page : List ι) : Prop :=
  ∀ x, live x → ∀ y ∈ page, x ≤ y → has x ∨ x ∈ page

/-- The cursor after an id has been passed. -/
def advance (cursor : Option ι) (x : ι) : Option ι :=
  if cursor.all (· < x) then some x else cursor

/-- At or below the cursor. -/
def Passed (cursor : Option ι) (x : ι) : Prop := ∃ c ∈ cursor, x ≤ c

instance (cursor : Option ι) (x : ι) : Decidable (Passed cursor x) :=
  inferInstanceAs (Decidable (∃ c ∈ cursor, x ≤ c))

/-! ## Moving the cursor -/

theorem mem_advance {c x : ι} (h : c ∈ advance cursor x) : c = x ∨ c ∈ cursor := by
  unfold advance at h
  split at h
  · exact .inl (Option.some.inj h).symm
  · exact .inr h

theorem Passed.advance {x : ι} (h : Passed cursor x) (y : ι) : Passed (advance cursor y) x := by
  obtain ⟨c, rfl, hxc⟩ := h
  unfold Cursor.advance
  split
  case isTrue hlt => exact ⟨y, rfl, le_trans hxc (le_of_lt (by simpa using hlt))⟩
  case isFalse => exact ⟨c, rfl, hxc⟩

/-! ## What keeps a cursor sound -/

variable {page : List ι}

theorem covers_none : Covers live has none := by
  intro x _ c hc
  exact absurd hc (by simp)

theorem covers_passed : Covers live (Passed cursor) cursor := fun _ _ c hc hle => ⟨c, hc, hle⟩

theorem Covers.mono (h : Covers live has cursor) (hhas : ∀ x, live x → has x → has' x) :
    Covers live has' cursor := fun x hx c hc hle => hhas x hx (h x hx c hc hle)

/-- Ids may go, and may come as long as they come ahead of the cursor. -/
theorem Covers.arrive (h : Covers live has cursor)
    (hlive : ∀ x, live' x → live x ∨ has x ∨ ∀ c ∈ cursor, c < x) : Covers live' has cursor := by
  intro x hx c hc hle
  rcases hlive x hx with hold | hhas | hahead
  · exact h x hold c hc hle
  · exact hhas
  · exact absurd hle (not_le.mpr (hahead c hc))

theorem GapFree.mono (h : GapFree live has page)
    (hhas : ∀ x, live x → has x → has' x) : GapFree live has' page :=
  fun x hx y hy hle => (h x hx y hy hle).imp_left (hhas x hx)

theorem GapFree.arrive (h : GapFree live has page)
    (hlive : ∀ x, live' x → live x ∨ has x ∨ ∀ y ∈ page, y < x) : GapFree live' has page := by
  intro x hx y hy hle
  rcases hlive x hx with hold | hhas | hahead
  · exact h x hold y hy hle
  · exact .inl hhas
  · exact absurd hle (not_le.mpr (hahead y hy))

/-- A page read after a sound cursor skips nothing when it is closed downwards. -/
theorem gapFree_of_covers (h : Covers live has cursor)
    (hclosed : ∀ x, live x → (∀ c ∈ cursor, c < x) → ∀ y ∈ page, x ≤ y → x ∈ page) :
    GapFree live has page := by
  intro x hx y hy hle
  by_cases hahead : ∀ c ∈ cursor, c < x
  · exact .inr (hclosed x hx hahead y hy hle)
  · push Not at hahead
    obtain ⟨c, hc, hxc⟩ := hahead
    exact .inl (h x hx c hc hxc)

/-! ## Reading a page -/

/-- Passing the first id of an increasing page keeps the cursor sound once the
    reader has that id. -/
theorem Covers.advance {y : ι} (h : Covers live has cursor) (hgap : GapFree live has (y :: page))
    (hsorted : ∀ z ∈ page, y < z) (hy : has y) : Covers live has (advance cursor y) := by
  intro x hx c hc hle
  rcases mem_advance hc with rfl | hold
  · rcases hgap x hx c List.mem_cons_self hle with hhas | hmem
    · exact hhas
    · rcases List.mem_cons.mp hmem with rfl | htail
      · exact hy
      · exact absurd hle (not_le.mpr (hsorted x htail))
  · exact h x hx c hold hle

/-- What is left of the page still skips nothing. -/
theorem GapFree.tail {y : ι} (hgap : GapFree live has (y :: page)) (hy : has y) :
    GapFree live has page := by
  intro x hx z hz hle
  rcases hgap x hx z (List.mem_cons_of_mem _ hz) hle with hhas | hmem
  · exact .inl hhas
  · rcases List.mem_cons.mp hmem with rfl | htail
    · exact .inl hy
    · exact .inr htail

end Cursor
