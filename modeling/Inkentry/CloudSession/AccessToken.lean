/-
  Inkentry.CloudSession.AccessToken

  The claims in an access token: the payload is the token's second part,
  base64url text that a hand-written decoder reads.

  The decoder shifts each digit into one `u32` and never masks it, so what is
  left of earlier bytes stays above the bits still to be read and falls out at
  the top.  `Decoder.quad` says why that does no harm: from any word with no
  bits to read, four digits give the three bytes they encode.
-/

import Mathlib.Data.List.DropRight
import Inkentry.Lib.Base64Url
import Inkentry.Lib.Utf8

namespace Inkentry
namespace AccessToken

open Base64Url

/-! ## The decoder -/

inductive Panic where
  | arithmeticOverflow
  | capacityOverflow
  deriving DecidableEq

/-- The product of two `usize`: a build without overflow checks wraps. -/
def usizeMul (overflowChecks : Bool) (a b : ℕ) : Except Panic ℕ :=
  if overflowChecks ∧ 18446744073709551616 ≤ a * b then .error .arithmeticOverflow
  else .ok (a * b % 18446744073709551616)

/-- `Vec::with_capacity`, which takes no more than `isize::MAX` bytes. -/
def withCapacity (capacity : ℕ) : Except Panic (List UInt8) :=
  if capacity < 9223372036854775808 then .ok [] else .error .capacityOverflow

-- none of the differences and sums leaves `u8`
def val (c : UInt8) : Option UInt32 :=
  if 65 ≤ c ∧ c ≤ 90 then some (c - 65).toUInt32
  else if 97 ≤ c ∧ c ≤ 122 then some (c - 97 + 26).toUInt32
  else if 48 ≤ c ∧ c ≤ 57 then some (c - 48 + 52).toUInt32
  else if c = 45 then some 62
  else if c = 95 then some 63
  else none

structure Decoder where
  acc : UInt32
  bits : UInt32
  out : List UInt8
  deriving DecidableEq

def Decoder.push (overflowChecks : Bool) (d : Decoder) (v : UInt32) : Except Panic Decoder :=
  let acc := d.acc <<< 6 ||| v
  if overflowChecks ∧ 4294967296 ≤ d.bits.toNat + 6 then .error .arithmeticOverflow
  else
    let bits := d.bits + 6
    if 8 ≤ bits then
      let bits := bits - 8
      if overflowChecks ∧ 32 ≤ bits then .error .arithmeticOverflow
      else .ok ⟨acc, bits, d.out ++ [(acc >>> bits).toUInt8]⟩
    else .ok ⟨acc, bits, d.out⟩

def decodeFrom (overflowChecks : Bool) : Decoder → List UInt8 → Except Panic (Option (List UInt8))
  | d, [] => .ok (some d.out)
  | d, c :: rest =>
    match val c with
    | none => .ok none
    | some v =>
      match d.push overflowChecks v with
      | .error panic => .error panic
      | .ok d => decodeFrom overflowChecks d rest

/-- The text less the `=` at its end. -/
def trimPadding (input : List Char) : List Char := input.rdropWhile (· == '=')

def base64urlDecode (overflowChecks : Bool) (input : List Char) :
    Except Panic (Option (List UInt8)) :=
  let input := Utf8.encode (trimPadding input)
  match usizeMul overflowChecks input.length 3 with
  | .error panic => .error panic
  | .ok product =>
    match withCapacity (product / 4) with
    | .error panic => .error panic
    | .ok out => decodeFrom overflowChecks ⟨0, 0, out⟩ input

structure JwtClaims where
  exp : Option ℤ
  orgId : Option String
  deriving DecidableEq

/-- The claims in a token; `fromSlice` reads them off JSON bytes. -/
def decodeJwtClaims (overflowChecks : Bool) (fromSlice : List UInt8 → Option JwtClaims)
    (token : List Char) : Except Panic (Option JwtClaims) :=
  match (token.splitOn '.')[1]? with
  | none => .ok none
  | some payload =>
    match base64urlDecode overflowChecks payload with
    | .error panic => .error panic
    | .ok none => .ok none
    | .ok (some bytes) => .ok (fromSlice bytes)

/-! ## One character -/

theorem val_symbol : ∀ d < 64, val (UInt8.ofNat (symbol d).toNat) = some (UInt32.ofNat d) := by
  decide

theorem utf8EncodeChar_symbol :
    ∀ d < 64, String.utf8EncodeChar (symbol d) = [UInt8.ofNat (symbol d).toNat] := by
  decide

theorem toNat_symbol_lt : ∀ d < 64, (symbol d).toNat < 128 := by decide

set_option maxRecDepth 2000 in
theorem symbol_of_val {b : UInt8} {v : UInt32} (h : val b = some v) :
    v.toNat < 64 ∧ b = UInt8.ofNat (symbol v.toNat).toNat := by
  have hall : ∀ n < 256, (val (UInt8.ofNat n)).all
      (fun v => v.toNat < 64 ∧ UInt8.ofNat n = UInt8.ofNat (symbol v.toNat).toNat) = true := by
    decide
  have hb := hall b.toNat b.toNat_lt
  rw [UInt8.ofNat_toNat, h] at hb
  simpa using hb

theorem exists_val_eq_none {c : Char} (hc : c ∉ alphabet) :
    ∃ b ∈ String.utf8EncodeChar c, val b = none := by
  have hpos := Utf8.length_utf8EncodeChar_pos c
  refine ⟨(String.utf8EncodeChar c).get ⟨0, hpos⟩, List.get_mem _ _, ?_⟩
  refine Option.eq_none_iff_forall_ne_some.mpr fun v hv => hc ?_
  obtain ⟨hlt, hb⟩ := symbol_of_val hv
  have hsymbol := toNat_symbol_lt v.toNat hlt
  have hbyte : (UInt8.ofNat (symbol v.toNat).toNat).toNat = (symbol v.toNat).toNat := by
    rw [UInt8.toNat_ofNat']
    omega
  have hmem := List.get_mem (String.utf8EncodeChar c) ⟨0, hpos⟩
  rw [hb] at hmem
  have hcode := Utf8.toNat_eq_of_mem_utf8EncodeChar (by omega) hmem
  rw [hbyte] at hcode
  exact mem_alphabet_iff.mpr ⟨v.toNat, hlt, (Char.ext (UInt32.toNat_inj.mp hcode)).symm⟩

/-! ## One digit -/

theorem toNat_acc {acc v : UInt32} (hv : v.toNat < 64) :
    (acc <<< 6 ||| v).toNat = (acc.toNat * 64 + v.toNat) % 4294967296 := by
  have hshift : (acc <<< 6).toNat = (acc.toNat % 67108864) <<< 6 := by
    rw [UInt32.toNat_shiftLeft, Nat.shiftLeft_eq, Nat.shiftLeft_eq]
    simp only [UInt32.reduceToNat, Nat.reduceMod, Nat.reducePow]
    omega
  rw [UInt32.toNat_or, hshift, ← Nat.shiftLeft_add_eq_or_of_lt hv, Nat.shiftLeft_eq]
  omega

namespace Decoder

variable {overflowChecks : Bool}
variable {d : Decoder} {digit : ℕ}

theorem push_of_lt (hbits : d.bits.toNat < 2) (v : UInt32) :
    d.push overflowChecks v = .ok ⟨d.acc <<< 6 ||| v, d.bits + 6, d.out⟩ := by
  have hadd : (d.bits + 6).toNat = d.bits.toNat + 6 := by
    rw [UInt32.toNat_add]
    simp only [UInt32.reduceToNat]
    omega
  have hwide : ¬ 4294967296 ≤ d.bits.toNat + 6 := by omega
  have hfew : ¬ (8 : UInt32) ≤ d.bits + 6 := by
    rw [UInt32.le_iff_toNat_le, hadd]
    simp only [UInt32.reduceToNat]
    omega
  simp [push, hwide, hfew]

theorem push_of_le (hle : 2 ≤ d.bits.toNat) (hlt : d.bits.toNat < 8) (v : UInt32) :
    d.push overflowChecks v = .ok ⟨d.acc <<< 6 ||| v, d.bits - 2,
      d.out ++ [((d.acc <<< 6 ||| v) >>> (d.bits - 2)).toUInt8]⟩ := by
  have hadd : (d.bits + 6).toNat = d.bits.toNat + 6 := by
    rw [UInt32.toNat_add]
    simp only [UInt32.reduceToNat]
    omega
  -- at most seven bits wait, so six more neither overflow the count nor the shift
  have hwide : ¬ 4294967296 ≤ d.bits.toNat + 6 := by omega
  have hmany : (8 : UInt32) ≤ d.bits + 6 := by
    rw [UInt32.le_iff_toNat_le, hadd]
    simp only [UInt32.reduceToNat]
    omega
  have hsub : d.bits + 6 - 8 = d.bits - 2 := by grind
  have hbits : (d.bits - 2).toNat = d.bits.toNat - 2 := by
    have hle' : (2 : UInt32) ≤ d.bits := UInt32.le_iff_toNat_le.mpr hle
    rw [UInt32.toNat_sub_of_le _ _ hle']
    rfl
  have hshift : ¬ (32 : UInt32) ≤ d.bits - 2 := by
    rw [UInt32.le_iff_toNat_le, hbits]
    simp only [UInt32.reduceToNat]
    omega
  simp [push, hwide, hmany, hsub, hshift]

theorem decodeFrom_symbol (hdigit : digit < 64) {d e : Decoder}
    (hpush : d.push overflowChecks (UInt32.ofNat digit) = .ok e) (text : List Char) :
    decodeFrom overflowChecks d (Utf8.encode (symbol digit :: text))
      = decodeFrom overflowChecks e (Utf8.encode text) := by
  rw [Utf8.encode_cons, utf8EncodeChar_symbol digit hdigit, List.singleton_append, decodeFrom,
    val_symbol digit hdigit]
  simp only [hpush]

theorem toNat_acc_ofNat (hdigit : digit < 64) (acc : UInt32) :
    (acc <<< 6 ||| UInt32.ofNat digit).toNat = (acc.toNat * 64 + digit) % 4294967296 := by
  have hv : (UInt32.ofNat digit).toNat = digit := by
    rw [UInt32.toNat_ofNat']
    omega
  rw [toNat_acc (by omega), hv]

variable (overflowChecks)
variable {acc : UInt32}

theorem decodeFrom_first (hdigit : digit < 64) (acc : UInt32) (out : List UInt8) :
    ∃ acc' : UInt32, acc'.toNat % 64 = digit ∧ ∀ text,
      decodeFrom overflowChecks ⟨acc, 0, out⟩ (Utf8.encode (symbol digit :: text))
        = decodeFrom overflowChecks ⟨acc', 6, out⟩ (Utf8.encode text) := by
  refine ⟨acc <<< 6 ||| UInt32.ofNat digit, ?_, fun text => ?_⟩
  · rw [toNat_acc_ofNat hdigit]
    omega
  · exact decodeFrom_symbol hdigit (push_of_lt (show (0 : UInt32).toNat < 2 by decide) _) text

/-- The byte that the low bits of a word and one more digit make. -/
theorem byte_of_low {acc bits : UInt32} {digit low width : ℕ} (hdigit : digit < 64)
    (hwidth : width = 1 ∨ width = 4 ∨ width = 16) (hlow : acc.toNat % (width * 4) = low)
    (hbits : ∀ word : UInt32, (word >>> bits).toNat = word.toNat / width) :
    ((acc <<< 6 ||| UInt32.ofNat digit) >>> bits).toUInt8
      = UInt8.ofNat ((low * 64 + digit) / width) := by
  apply UInt8.toNat_inj.mp
  rw [UInt32.toNat_toUInt8, hbits, toNat_acc_ofNat hdigit, UInt8.toNat_ofNat']
  rcases hwidth with rfl | rfl | rfl
  · omega
  · omega
  · omega

/-- Two bits more than `bits` to read: the digit completes a byte and the rest of it is held. -/
theorem decodeFrom_next (bits : UInt32) (width : ℕ) {digit low : ℕ} (hdigit : digit < 64)
    (hbits : bits = 0 ∧ width = 1 ∨ bits = 2 ∧ width = 4 ∨ bits = 4 ∧ width = 16)
    (hacc : acc.toNat % (width * 4) = low) (out : List UInt8) :
    ∃ acc' : UInt32, acc'.toNat % width = digit % width ∧ ∀ text,
      decodeFrom overflowChecks ⟨acc, bits + 2, out⟩ (Utf8.encode (symbol digit :: text))
        = decodeFrom overflowChecks
          ⟨acc', bits, out ++ [UInt8.ofNat ((low * 64 + digit) / width)]⟩ (Utf8.encode text) := by
  refine ⟨acc <<< 6 ||| UInt32.ofNat digit, ?_, fun text => decodeFrom_symbol hdigit ?_ text⟩
  · rw [toNat_acc_ofNat hdigit]
    rcases hbits with ⟨-, rfl⟩ | ⟨-, rfl⟩ | ⟨-, rfl⟩
    · omega
    · omega
    · omega
  -- the bits that wait are the low ones; the older ones fall out of the byte
  · have hshift : ∀ word : UInt32, (word >>> bits).toNat = word.toNat / width := by
      intro word
      rw [UInt32.toNat_shiftRight, Nat.shiftRight_eq_div_pow]
      rcases hbits with ⟨rfl, rfl⟩ | ⟨rfl, rfl⟩ | ⟨rfl, rfl⟩
      · rfl
      · rfl
      · rfl
    have hwidth : width = 1 ∨ width = 4 ∨ width = 16 := by
      rcases hbits with ⟨-, h⟩ | ⟨-, h⟩ | ⟨-, h⟩
      · exact .inl h
      · exact .inr (.inl h)
      · exact .inr (.inr h)
    have hrange : 2 ≤ (bits + 2).toNat ∧ (bits + 2).toNat < 8 := by
      rcases hbits with ⟨rfl, -⟩ | ⟨rfl, -⟩ | ⟨rfl, -⟩
      · decide
      · decide
      · decide
    rw [push_of_le hrange.1 hrange.2, UInt32.add_sub_cancel,
      byte_of_low hdigit hwidth hacc hshift]

/-- Two digits are one byte, and the second's low four bits are held. -/
theorem decodeFrom_two {a : UInt8} {low : ℕ} (hlow : low < 16) (acc : UInt32) (out : List UInt8) :
    ∃ acc' : UInt32, acc'.toNat % 16 = low ∧ ∀ text,
      decodeFrom overflowChecks ⟨acc, 0, out⟩
          (Utf8.encode (symbol (a.toNat / 4) :: symbol (a.toNat % 4 * 16 + low) :: text))
        = decodeFrom overflowChecks ⟨acc', 4, out ++ [a]⟩ (Utf8.encode text) := by
  have ha := a.toNat_lt
  obtain ⟨acc₁, h₁, hrun₁⟩ := decodeFrom_first overflowChecks
    (show a.toNat / 4 < 64 by omega) acc out
  obtain ⟨acc₂, h₂, hrun₂⟩ := decodeFrom_next overflowChecks 4 16
    (show a.toNat % 4 * 16 + low < 64 by omega) (.inr (.inr ⟨rfl, rfl⟩)) h₁ out
  have hbyte : UInt8.ofNat ((a.toNat / 4 * 64 + (a.toNat % 4 * 16 + low)) / 16) = a := by
    have hval : (a.toNat / 4 * 64 + (a.toNat % 4 * 16 + low)) / 16 = a.toNat := by omega
    rw [hval, UInt8.ofNat_toNat]
  refine ⟨acc₂, by omega, fun text => ?_⟩
  rw [hrun₁, show (6 : UInt32) = 4 + 2 from rfl, hrun₂, hbyte]

/-- One more digit is one more byte, and its low two bits are held. -/
theorem decodeFrom_three {b : UInt8} {low : ℕ} (hlow : low < 4)
    (hacc : acc.toNat % 16 = b.toNat / 16) (out : List UInt8) :
    ∃ acc' : UInt32, acc'.toNat % 4 = low ∧ ∀ text,
      decodeFrom overflowChecks ⟨acc, 4, out⟩
          (Utf8.encode (symbol (b.toNat % 16 * 4 + low) :: text))
        = decodeFrom overflowChecks ⟨acc', 2, out ++ [b]⟩ (Utf8.encode text) := by
  obtain ⟨acc', h, hrun⟩ := decodeFrom_next overflowChecks 2 4
    (show b.toNat % 16 * 4 + low < 64 by omega) (.inr (.inl ⟨rfl, rfl⟩)) hacc out
  have hbyte : UInt8.ofNat ((b.toNat / 16 * 64 + (b.toNat % 16 * 4 + low)) / 4) = b := by
    have hval : (b.toNat / 16 * 64 + (b.toNat % 16 * 4 + low)) / 4 = b.toNat := by omega
    rw [hval, UInt8.ofNat_toNat]
  refine ⟨acc', by omega, fun text => ?_⟩
  rw [show (4 : UInt32) = 2 + 2 from rfl, hrun, hbyte]

theorem decodeFrom_four {c : UInt8} (hacc : acc.toNat % 4 = c.toNat / 64) (out : List UInt8) :
    ∃ acc' : UInt32, ∀ text,
      decodeFrom overflowChecks ⟨acc, 2, out⟩ (Utf8.encode (symbol (c.toNat % 64) :: text))
        = decodeFrom overflowChecks ⟨acc', 0, out ++ [c]⟩ (Utf8.encode text) := by
  obtain ⟨acc', -, hrun⟩ := decodeFrom_next overflowChecks 0 1
    (Nat.mod_lt c.toNat (by decide)) (.inl ⟨rfl, rfl⟩) hacc out
  have hbyte : UInt8.ofNat ((c.toNat / 64 * 64 + c.toNat % 64) / 1) = c := by
    have hval : (c.toNat / 64 * 64 + c.toNat % 64) / 1 = c.toNat := by omega
    rw [hval, UInt8.ofNat_toNat]
  refine ⟨acc', fun text => ?_⟩
  rw [show (2 : UInt32) = 0 + 2 from rfl, hrun, hbyte]

/-- Whatever earlier bytes have left in the word, the text of bytes is read as them. -/
theorem decodeFrom_encode (bytes : List UInt8) : ∀ (acc : UInt32) (out : List UInt8),
    decodeFrom overflowChecks ⟨acc, 0, out⟩ (Utf8.encode (encode bytes)) = .ok (some (out ++ bytes)) := by
  induction bytes using digits.induct with
  -- three bytes are four symbols, and the decoder is back at no bits waiting
  | case1 a b c rest ih =>
    intro acc out
    have hb := b.toNat_lt
    have hc := c.toNat_lt
    obtain ⟨acc₂, h₂, hrun₂⟩ := decodeFrom_two overflowChecks (a := a)
      (show b.toNat / 16 < 16 by omega) acc out
    obtain ⟨acc₃, h₃, hrun₃⟩ := decodeFrom_three overflowChecks
      (show c.toNat / 64 < 4 by omega) h₂ (out ++ [a])
    obtain ⟨acc₄, hrun₄⟩ := decodeFrom_four overflowChecks h₃ (out ++ [a] ++ [b])
    rw [encode, digits]
    simp only [List.map_cons]
    rw [hrun₂, hrun₃, hrun₄]
    show decodeFrom overflowChecks _ (Utf8.encode (encode rest)) = _
    rw [ih]
    simp
  | case2 a b =>
    intro acc out
    have hb := b.toNat_lt
    obtain ⟨acc₂, h₂, hrun₂⟩ := decodeFrom_two overflowChecks (a := a)
      (show b.toNat / 16 < 16 by omega) acc out
    obtain ⟨acc₃, -, hrun₃⟩ := decodeFrom_three overflowChecks
      (show 0 < 4 by decide) h₂ (out ++ [a])
    rw [encode, digits]
    simp only [List.map_cons, List.map_nil]
    rw [hrun₂, ← Nat.add_zero (b.toNat % 16 * 4), hrun₃]
    simp [decodeFrom]
  | case3 a =>
    intro acc out
    obtain ⟨acc₂, -, hrun₂⟩ := decodeFrom_two overflowChecks (a := a)
      (show 0 < 16 by decide) acc out
    rw [encode, digits]
    simp only [List.map_cons, List.map_nil]
    rw [← Nat.add_zero (a.toNat % 4 * 16), hrun₂]
    simp [decodeFrom]
  | case4 => exact fun acc out => by simp [encode, digits, decodeFrom]

theorem exists_push (hbits : d.bits.toNat < 8) (v : UInt32) :
    ∃ e : Decoder, d.push overflowChecks v = .ok e ∧ e.bits.toNat < 8 := by
  rcases Nat.lt_or_ge d.bits.toNat 2 with hlt | hle
  · refine ⟨_, push_of_lt hlt v, ?_⟩
    show (d.bits + 6).toNat < 8
    rw [UInt32.toNat_add]
    simp only [UInt32.reduceToNat]
    omega
  · refine ⟨_, push_of_le hle hbits v, ?_⟩
    have hle' : (2 : UInt32) ≤ d.bits := UInt32.le_iff_toNat_le.mpr hle
    show (d.bits - 2).toNat < 8
    rw [UInt32.toNat_sub_of_le _ _ hle']
    exact Nat.lt_of_le_of_lt (Nat.sub_le _ _) hbits

theorem decodeFrom_cases (bytes : List UInt8) : ∀ {d : Decoder}, d.bits.toNat < 8 →
    (decodeFrom overflowChecks d bytes = .ok none ∧ ∃ b ∈ bytes, val b = none)
      ∨ ((∃ out, decodeFrom overflowChecks d bytes = .ok (some out)) ∧ ∀ b ∈ bytes, val b ≠ none) := by
  -- over the bytes; at most seven bits wait, so no step panics
  induction bytes with
  | nil => exact fun _ => .inr ⟨⟨_, rfl⟩, by simp⟩
  | cons b rest ih =>
    intro d hbits
    cases hval : val b with
    | none => exact .inl ⟨by rw [decodeFrom, hval], b, List.mem_cons_self, hval⟩
    | some v =>
      obtain ⟨e, hpush, he⟩ := exists_push overflowChecks hbits v
      have hstep : decodeFrom overflowChecks d (b :: rest) = decodeFrom overflowChecks e rest := by
        rw [decodeFrom, hval]
        simp only [hpush]
      rw [hstep]
      rcases ih he with ⟨hnone, b', hb', hval'⟩ | ⟨hsome, hall⟩
      · exact .inl ⟨hnone, b', List.mem_cons_of_mem b hb', hval'⟩
      · refine .inr ⟨hsome, fun b' hb' => ?_⟩
        rcases List.mem_cons.mp hb' with rfl | hb'
        · simp [hval]
        · exact hall b' hb'

end Decoder

/-! ## The text -/

variable {text : List Char}

/-- Three times the length fits a `usize`. -/
def Fits (text : List Char) : Prop :=
  (Utf8.encode (trimPadding text)).length * 3 < 18446744073709551616

/-- The capacity asked for is at most a quarter of a `usize`, wrapped or not. -/
theorem base64urlDecode_eq {overflowChecks : Bool} (hfits : overflowChecks = true → Fits text) :
    base64urlDecode overflowChecks text
      = decodeFrom overflowChecks ⟨0, 0, []⟩ (Utf8.encode (trimPadding text)) := by
  have hmul : usizeMul overflowChecks (Utf8.encode (trimPadding text)).length 3
      = .ok ((Utf8.encode (trimPadding text)).length * 3 % 18446744073709551616) := by
    refine if_neg fun ⟨hchecks, hover⟩ => ?_
    exact absurd hover (Nat.not_le.mpr (hfits hchecks))
  have hcapacity : (Utf8.encode (trimPadding text)).length * 3 % 18446744073709551616 / 4
      < 9223372036854775808 := by omega
  simp only [base64urlDecode, hmul, withCapacity, hcapacity, if_true]

theorem trimPadding_append_replicate (h : '=' ∉ text) (padding : ℕ) :
    trimPadding (text ++ List.replicate padding '=') = text := by
  induction padding with
  | zero =>
    rw [List.replicate_zero, List.append_nil]
    refine List.rdropWhile_eq_self_iff.mpr fun hne heq => h ?_
    rw [← beq_iff_eq.mp heq]
    exact List.getLast_mem hne
  | succ padding ih =>
    rw [List.replicate_succ', ← List.append_assoc, trimPadding, List.rdropWhile_concat_pos _ _ _ rfl]
    exact ih

theorem mem_trimPadding {c : Char} (hc : c ∈ text) (hne : c ≠ '=') : c ∈ trimPadding text := by
  induction text using List.reverseRecOn with
  | nil => exact absurd hc List.not_mem_nil
  | append_singleton text last ih =>
    by_cases hlast : last = '='
    · subst hlast
      rw [trimPadding, List.rdropWhile_concat_pos _ _ _ rfl]
      rcases List.mem_append.mp hc with hc | hc
      · exact ih hc
      · exact absurd (List.mem_singleton.mp hc) hne
    · rw [trimPadding, List.rdropWhile_concat_neg _ _ _ (by simpa using hlast)]
      exact hc

theorem val_eq_none_iff : (∃ b ∈ Utf8.encode text, val b = none) ↔ ∃ c ∈ text, c ∉ alphabet := by
  constructor
  · rintro ⟨b, hb, hval⟩
    obtain ⟨c, hc, hbc⟩ := List.mem_flatMap.mp hb
    refine ⟨c, hc, fun hmem => ?_⟩
    obtain ⟨d, hd, rfl⟩ := mem_alphabet_iff.mp hmem
    rw [utf8EncodeChar_symbol d hd] at hbc
    rw [List.mem_singleton.mp hbc, val_symbol d hd] at hval
    cases hval
  · rintro ⟨c, hc, hmem⟩
    obtain ⟨b, hb, hval⟩ := exists_val_eq_none hmem
    exact ⟨b, List.mem_flatMap.mpr ⟨c, hc, hb⟩, hval⟩

section

variable {overflowChecks : Bool}

theorem base64urlDecode_encode {bytes : List UInt8} {padding : ℕ}
    (hfits : overflowChecks = true → Fits (encode bytes ++ List.replicate padding '=')) :
    base64urlDecode overflowChecks (encode bytes ++ List.replicate padding '=')
      = .ok (some bytes) := by
  have hpad : '=' ∉ encode bytes := fun h => pad_not_mem_alphabet (mem_alphabet_of_mem_encode h)
  rw [base64urlDecode_eq hfits, trimPadding_append_replicate hpad, Decoder.decodeFrom_encode,
    List.nil_append]

theorem base64urlDecode_cases {text : List Char} (hfits : overflowChecks = true → Fits text) :
    (base64urlDecode overflowChecks text = .ok none ∧ ∃ c ∈ trimPadding text, c ∉ alphabet)
      ∨ ((∃ bytes, base64urlDecode overflowChecks text = .ok (some bytes))
        ∧ ¬ ∃ c ∈ trimPadding text, c ∉ alphabet) := by
  rw [base64urlDecode_eq hfits, ← val_eq_none_iff]
  rcases Decoder.decodeFrom_cases overflowChecks
    (Utf8.encode (trimPadding text)) (d := ⟨0, 0, []⟩) (show (0 : UInt32).toNat < 8 by decide)
    with hnone | ⟨hsome, hall⟩
  · exact .inl hnone
  · exact .inr ⟨hsome, fun ⟨b, hb, hval⟩ => hall b hb hval⟩

/-- The second part of a token is what stands between its first two dots. -/
theorem splitOn_token {header payload rest : List Char} (hheader : '.' ∉ header)
    (hpayload : '.' ∉ payload) (hrest : rest = [] ∨ ∃ signature, rest = '.' :: signature) :
    ((header ++ '.' :: (payload ++ rest)).splitOn '.')[1]? = some payload := by
  rw [List.splitOn_append_cons_self_of_not_mem hheader]
  rcases hrest with rfl | ⟨signature, rfl⟩
  · rw [List.append_nil, List.splitOn_eq_singleton hpayload]
    rfl
  · rw [List.splitOn_append_cons_self_of_not_mem hpayload]
    rfl

end

/-- What reading claims promises of the texts that fit. -/
structure DecodeLaw (overflowChecks : Bool) (fits : List Char → Prop) : Prop where
  inverts : ∀ (bytes : List UInt8) (padding : ℕ), fits (encode bytes ++ List.replicate padding '=') →
    base64urlDecode overflowChecks (encode bytes ++ List.replicate padding '=') = .ok (some bytes)
  other_character : ∀ (text : List Char) (c : Char), fits text → c ∈ text → c ∉ alphabet → c ≠ '=' →
    base64urlDecode overflowChecks text = .ok none
  refused_iff : ∀ text : List Char, fits text →
    (base64urlDecode overflowChecks text = .ok none ↔ ∃ c ∈ trimPadding text, c ∉ alphabet)
  never_panics : ∀ (text : List Char) (panic : Panic), fits text →
    base64urlDecode overflowChecks text ≠ .error panic
  reads_payload : ∀ (fromSlice : List UInt8 → Option JwtClaims) (header rest : List Char)
    (payload : List UInt8) (padding : ℕ), '.' ∉ header →
    (rest = [] ∨ ∃ signature, rest = '.' :: signature) →
    fits (encode payload ++ List.replicate padding '=') →
    decodeJwtClaims overflowChecks fromSlice
        (header ++ '.' :: (encode payload ++ List.replicate padding '=' ++ rest))
      = .ok (fromSlice payload)

theorem decodeLaw_of_fits {overflowChecks : Bool} {fits : List Char → Prop}
    (hfits : ∀ text, fits text → overflowChecks = true → Fits text) :
    DecodeLaw overflowChecks fits where
  inverts := fun bytes padding h => base64urlDecode_encode (hfits _ h)
  other_character := by
    intro text c h hc hother hne
    rcases base64urlDecode_cases (hfits text h) with ⟨hnone, -⟩ | ⟨-, hall⟩
    · exact hnone
    · exact absurd ⟨c, mem_trimPadding hc hne, hother⟩ hall
  refused_iff := by
    intro text h
    rcases base64urlDecode_cases (hfits text h) with ⟨hnone, hother⟩ | ⟨⟨bytes, hsome⟩, hall⟩
    · exact iff_of_true hnone hother
    · exact iff_of_false (by simp [hsome]) hall
  never_panics := by
    intro text panic h hpanic
    rcases base64urlDecode_cases (hfits text h) with ⟨hnone, -⟩ | ⟨⟨bytes, hsome⟩, -⟩
    · simp [hnone] at hpanic
    · simp [hsome] at hpanic
  reads_payload := by
    intro fromSlice header rest payload padding hheader hrest h
    have hdot : '.' ∉ encode payload ++ List.replicate padding '=' := by
      intro hmem
      rcases List.mem_append.mp hmem with hmem | hmem
      · exact dot_not_mem_alphabet (mem_alphabet_of_mem_encode hmem)
      · exact absurd (List.eq_of_mem_replicate hmem) (by decide)
    rw [decodeJwtClaims, splitOn_token hheader hdot hrest]
    simp only [base64urlDecode_encode (hfits _ h)]

/-- Without overflow checks every text is read as the law says; with them, every text whose
    length times three can be written down. -/
theorem base64urlDecode_law : DecodeLaw false (fun _ => True) ∧ DecodeLaw true Fits :=
  ⟨decodeLaw_of_fits fun _ _ h => absurd h (by decide), decodeLaw_of_fits fun _ h _ => h⟩

-- the second four digits are read above what the first four left in the word
example : base64urlDecode true ['_', '-', '8', 'B', 'A', 'g', 'M', '='] = .ok (some [255, 239, 1, 2, 3]) := by
  decide

end AccessToken
end Inkentry
