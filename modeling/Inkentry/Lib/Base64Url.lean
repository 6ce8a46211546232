/-
  Lib.Base64Url

  The URL-safe base64 text of bytes: three bytes are four digits to the base of
  64, and one or two bytes at the end are two or three, filled up with zero
  bits.  Padding is left to the caller.
-/

import Mathlib.Data.List.Basic

namespace Base64Url

/-- The character of a digit. -/
def symbol (digit : ℕ) : Char :=
  if digit < 26 then Char.ofNat ('A'.toNat + digit)
  else if digit < 52 then Char.ofNat ('a'.toNat + (digit - 26))
  else if digit < 62 then Char.ofNat ('0'.toNat + (digit - 52))
  else if digit = 62 then '-'
  else '_'

/-- The sixty-four characters. -/
def alphabet : List Char := (List.range 64).map symbol

/-- The digits of bytes. -/
def digits : List UInt8 → List ℕ
  | a :: b :: c :: rest =>
    a.toNat / 4 :: (a.toNat % 4 * 16 + b.toNat / 16) :: (b.toNat % 16 * 4 + c.toNat / 64)
      :: c.toNat % 64 :: digits rest
  | [a, b] => [a.toNat / 4, a.toNat % 4 * 16 + b.toNat / 16, b.toNat % 16 * 4]
  | [a] => [a.toNat / 4, a.toNat % 4 * 16]
  | [] => []

def encode (bytes : List UInt8) : List Char := (digits bytes).map symbol

theorem lt_of_mem_digits {bytes : List UInt8} : ∀ {d : ℕ}, d ∈ digits bytes → d < 64 := by
  induction bytes using digits.induct with
  | case1 a b c rest ih =>
    intro d hd
    have ha := a.toNat_lt
    have hb := b.toNat_lt
    have hc := c.toNat_lt
    rw [digits] at hd
    simp only [List.mem_cons] at hd
    rcases hd with rfl | rfl | rfl | rfl | hd
    · omega
    · omega
    · omega
    · omega
    · exact ih hd
  | case2 a b =>
    intro d hd
    have ha := a.toNat_lt
    have hb := b.toNat_lt
    simp only [digits, List.mem_cons, List.not_mem_nil, or_false] at hd
    omega
  | case3 a =>
    intro d hd
    have ha := a.toNat_lt
    simp only [digits, List.mem_cons, List.not_mem_nil, or_false] at hd
    omega
  | case4 => exact fun hd => absurd hd List.not_mem_nil

theorem mem_alphabet_iff {c : Char} : c ∈ alphabet ↔ ∃ d < 64, symbol d = c := by
  simp [alphabet]

theorem mem_alphabet_of_mem_encode {bytes : List UInt8} {c : Char} (hc : c ∈ encode bytes) :
    c ∈ alphabet := by
  obtain ⟨d, hd, rfl⟩ := List.mem_map.mp hc
  exact mem_alphabet_iff.mpr ⟨d, lt_of_mem_digits hd, rfl⟩

theorem pad_not_mem_alphabet : '=' ∉ alphabet := by
  intro h
  obtain ⟨d, hd, heq⟩ := mem_alphabet_iff.mp h
  exact absurd heq ((by decide : ∀ d < 64, symbol d ≠ '=') d hd)

theorem dot_not_mem_alphabet : '.' ∉ alphabet := by
  intro h
  obtain ⟨d, hd, heq⟩ := mem_alphabet_iff.mp h
  exact absurd heq ((by decide : ∀ d < 64, symbol d ≠ '.') d hd)

end Base64Url
