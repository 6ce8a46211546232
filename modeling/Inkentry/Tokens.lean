/-
  Inkentry.Tokens

  The token estimate that budgets and chunk bounds go by: a quarter of the
  characters, and at least one.
-/

import Mathlib.Data.String.Basic

namespace Inkentry

def estimateTokens (text : String) : Nat := max (text.toList.length / 4) 1

theorem estimateTokens_le {text : String} {cap : Nat} (hcap : 0 < cap)
    (h : text.toList.length ≤ cap * 4) : estimateTokens text ≤ cap := by
  rw [estimateTokens]
  omega

end Inkentry
