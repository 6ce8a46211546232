/-
  Inkentry.Lib.IpText

  What the parser of IP addresses reads: a number is the digits in front of the
  input, an IPv4 address four of them with dots between, and an IPv6 address has
  a colon and no character but digits, colons and dots.  The display of an IPv4
  address is read as the address.
-/

import Inkentry.Lib.IpAddr
import Mathlib.Data.List.TakeWhile
import Mathlib.Order.Basic

namespace Ip

def isDigit (radix : ℕ) (c : Char) : Bool := (toDigit radix c).isSome

/-- The number that digits write. -/
def numberOf (radix : ℕ) (digits : List Char) : ℕ :=
  (digits.filterMap (toDigit radix)).foldl (fun n digit => n * radix + digit) 0

/-- A text does not go on with a digit. -/
def NoDigit (radix : ℕ) (rest : List Char) : Prop := ∀ c ∈ rest.head?, isDigit radix c = false

/-! ## Numbers -/

section Numbers

variable {radix maxDigits bound n : ℕ} {zeros : Bool} {digits input rest : List Char}

/-- The digits that are read as a number. -/
structure IsNumber (radix maxDigits : ℕ) (zeros : Bool) (bound : ℕ) (digits : List Char) : Prop where
  ne_nil : digits ≠ []
  isDigit : ∀ c ∈ digits, isDigit radix c = true
  length_le : digits.length ≤ maxDigits
  noZero : zeros = false → digits.head? = some '0' → digits.length ≤ 1
  lt : numberOf radix digits < bound

theorem takeWhile_isDigit (hdigits : ∀ c ∈ digits, isDigit radix c = true)
    (hrest : NoDigit radix rest) : (digits ++ rest).takeWhile (isDigit radix) = digits := by
  rw [List.takeWhile_append_of_pos hdigits]
  cases rest with
  | nil => simp
  | cons c rest =>
    rw [List.takeWhile_cons, hrest c rfl]
    simp

theorem noDigit_dropWhile (input : List Char) :
    NoDigit radix (input.dropWhile (isDigit radix)) := by
  intro c hc
  have := List.head?_dropWhile_not (isDigit radix) input
  rw [Option.mem_def.mp hc] at this
  simpa using this

theorem drop_length_takeWhile (p : Char → Bool) (input : List Char) :
    input.drop (input.takeWhile p).length = input.dropWhile p := by
  have h := List.takeWhile_append_dropWhile (p := p) (l := input)
  calc input.drop (input.takeWhile p).length
      = (input.takeWhile p ++ input.dropWhile p).drop (input.takeWhile p).length := by rw [h]
    _ = input.dropWhile p := List.drop_left

theorem readNumber_eq (radix maxDigits : ℕ) (zeros : Bool) (bound : ℕ) (input : List Char) :
    readNumber radix maxDigits zeros bound input
      = if (input.takeWhile (isDigit radix)).length > maxDigits then none
        else if (input.takeWhile (isDigit radix)).length = 0 then none
        else if !zeros && input.head? == some '0'
            && (input.takeWhile (isDigit radix)).length > 1 then none
        else if numberOf radix (input.takeWhile (isDigit radix)) < bound then
          some (numberOf radix (input.takeWhile (isDigit radix)), input.dropWhile (isDigit radix))
        else none := by
  rw [← drop_length_takeWhile]
  rfl

/-- A number is read exactly where its digits stand in front. -/
theorem readNumber_eq_some_iff : readNumber radix maxDigits zeros bound input = some (n, rest)
    ↔ ∃ digits, input = digits ++ rest ∧ IsNumber radix maxDigits zeros bound digits
      ∧ n = numberOf radix digits ∧ NoDigit radix rest := by
  rw [readNumber_eq]
  constructor
  · intro h
    split at h
    case isTrue => cases h
    case isFalse hlen =>
    split at h
    case isTrue => cases h
    case isFalse hne =>
    split at h
    case isTrue => cases h
    case isFalse hzero =>
    split at h
    case isFalse => cases h
    case isTrue hlt =>
    obtain ⟨rfl, rfl⟩ := Prod.mk.inj (Option.some.inj h)
    -- the digits are the longest run of them
    have hsplit := List.takeWhile_append_dropWhile (p := isDigit radix) (l := input)
    refine ⟨_, hsplit.symm, ⟨fun hnil => hne (by rw [hnil]; rfl),
      fun c hc => List.mem_takeWhile_imp hc, not_lt.mp hlen, fun hzeros hhead => ?_, hlt⟩, rfl,
      noDigit_dropWhile input⟩
    by_contra hlong
    refine hzero ?_
    have hinput : input.head? = some '0' := by
      rw [← hsplit, List.head?_append, hhead]
      rfl
    simp [hzeros, hinput, not_le.mp hlong]
  · rintro ⟨digits, rfl, hnumber, rfl, hrest⟩
    have htake := takeWhile_isDigit hnumber.isDigit hrest
    have hdrop : (digits ++ rest).dropWhile (isDigit radix) = rest := by
      rw [← drop_length_takeWhile, htake, List.drop_left]
    rw [htake, hdrop, if_neg (not_lt.mpr hnumber.length_le),
      if_neg fun h => hnumber.ne_nil (List.length_eq_zero_iff.mp h), if_neg, if_pos hnumber.lt]
    intro h
    simp only [Bool.and_eq_true, Bool.not_eq_true', beq_iff_eq, decide_eq_true_eq] at h
    obtain ⟨⟨hzeros, hhead⟩, hlong⟩ := h
    have hdigits : digits.head? = some '0' := by
      obtain ⟨d, ds, rfl⟩ := List.exists_cons_of_ne_nil hnumber.ne_nil
      exact hhead
    exact absurd (hnumber.noZero hzeros hdigits) (not_le.mpr hlong)

theorem readSeparator_succ {α : Type} {sep : Char} {i : ℕ} {inner : List Char → Option (α × List Char)}
    {r : α × List Char} : readSeparator sep (i + 1) inner input = some r
      ↔ ∃ text, input = sep :: text ∧ inner text = some r := by
  cases input with
  | nil => simp [readSeparator]
  | cons c text => by_cases hc : c = sep <;> simp [readSeparator, hc]

end Numbers

/-! ## IPv4 -/

section Quads

variable {input rest : List Char} {addr : Ipv4Addr} {s t u v : List Char}

/-- The digits of a byte. -/
def IsOctet (digits : List Char) : Prop := IsNumber 10 3 false 256 digits

def quadText (s t u v : List Char) : List Char := s ++ '.' :: (t ++ '.' :: (u ++ '.' :: v))

def quadAddr (s t u v : List Char) : Ipv4Addr :=
  ⟨.ofNat (numberOf 10 s), .ofNat (numberOf 10 t), .ofNat (numberOf 10 u), .ofNat (numberOf 10 v)⟩

theorem noDigit_dot (text : List Char) : NoDigit 10 ('.' :: text) := by
  intro c hc
  obtain rfl := Option.some.inj hc
  decide

/-- An IPv4 address is read exactly where four numbers with dots between stand in front. -/
theorem readIpv4Addr_eq_some_iff : readIpv4Addr input = some (addr, rest)
    ↔ ∃ s t u v, input = quadText s t u v ++ rest ∧ IsOctet s ∧ IsOctet t ∧ IsOctet u ∧ IsOctet v
      ∧ addr = quadAddr s t u v ∧ NoDigit 10 rest := by
  have hfirst : ∀ text, readSeparator '.' 0 (readNumber 10 3 false 256) text
      = readNumber 10 3 false 256 text := fun _ => rfl
  constructor
  · intro h
    simp only [readIpv4Addr, bind, Option.bind_eq_some_iff, Prod.exists, hfirst, readSeparator_succ,
      pure, Option.some.injEq, Prod.mk.injEq, readNumber_eq_some_iff] at h
    obtain ⟨_, _, ⟨s, rfl, hs, rfl, -⟩, _, _, ⟨_, rfl, t, rfl, ht, rfl, -⟩, _, _,
      ⟨_, rfl, u, rfl, hu, rfl, -⟩, _, _, ⟨_, rfl, v, rfl, hv, rfl, hrest⟩, rfl, rfl⟩ := h
    exact ⟨s, t, u, v, by simp [quadText], hs, ht, hu, hv, rfl, hrest⟩
  · rintro ⟨s, t, u, v, rfl, hs, ht, hu, hv, rfl, hrest⟩
    simp only [readIpv4Addr, bind, Option.bind_eq_some_iff, Prod.exists, hfirst, readSeparator_succ,
      pure, Option.some.injEq, Prod.mk.injEq, readNumber_eq_some_iff]
    refine ⟨_, _, ⟨s, ?_, hs, rfl, noDigit_dot _⟩, _, _, ⟨_, rfl, t, rfl, ht, rfl, noDigit_dot _⟩, _, _,
      ⟨_, rfl, u, rfl, hu, rfl, noDigit_dot _⟩, _, _, ⟨_, rfl, v, rfl, hv, rfl, hrest⟩, rfl, rfl⟩
    simp [quadText]

theorem mem_quadText {c : Char} (hs : IsOctet s) (ht : IsOctet t) (hu : IsOctet u) (hv : IsOctet v)
    (hc : c ∈ quadText s t u v) : c = '.' ∨ isDigit 10 c = true := by
  simp only [quadText, List.mem_append, List.mem_cons] at hc
  rcases hc with hc | rfl | hc | rfl | hc | rfl | hc
  · exact .inr (hs.isDigit c hc)
  · exact .inl rfl
  · exact .inr (ht.isDigit c hc)
  · exact .inl rfl
  · exact .inr (hu.isDigit c hc)
  · exact .inl rfl
  · exact .inr (hv.isDigit c hc)

/-! ### Display -/

theorem isOctet_showNumber (octet : UInt8) : IsOctet (showNumber 10 octet.toNat).toList
    ∧ numberOf 10 (showNumber 10 octet.toNat).toList = octet.toNat := by
  have hall : ∀ n < 256, (Nat.toDigits 10 n) ≠ [] ∧ ((Nat.toDigits 10 n).all (isDigit 10)) = true
      ∧ (Nat.toDigits 10 n).length ≤ 3
      ∧ ((Nat.toDigits 10 n).head? = some '0' → (Nat.toDigits 10 n).length ≤ 1)
      ∧ numberOf 10 (Nat.toDigits 10 n) = n := by decide +kernel
  obtain ⟨hne, hdigit, hlen, hzero, hvalue⟩ := hall octet.toNat octet.toNat_lt
  rw [showNumber, String.toList_ofList]
  exact ⟨⟨hne, List.all_eq_true.mp hdigit, hlen, fun _ => hzero, hvalue.symm ▸ octet.toNat_lt⟩, hvalue⟩

theorem display_toList (addr : Ipv4Addr) : addr.display.toList
    = quadText (showNumber 10 addr.a.toNat).toList (showNumber 10 addr.b.toNat).toList
        (showNumber 10 addr.c.toNat).toList (showNumber 10 addr.d.toNat).toList := by
  simp [Ipv4Addr.display, quadText, String.toList_intercalate]

theorem readIpv4Addr_display (addr : Ipv4Addr) :
    readIpv4Addr addr.display.toList = some (addr, []) := by
  obtain ⟨ha, hav⟩ := isOctet_showNumber addr.a
  obtain ⟨hb, hbv⟩ := isOctet_showNumber addr.b
  obtain ⟨hc, hcv⟩ := isOctet_showNumber addr.c
  obtain ⟨hd, hdv⟩ := isOctet_showNumber addr.d
  refine readIpv4Addr_eq_some_iff.mpr ⟨_, _, _, _, by rw [display_toList, List.append_nil], ha, hb, hc,
    hd, ?_, fun c hc => by cases hc⟩
  rw [quadAddr, hav, hbv, hcv, hdv]
  simp

end Quads

/-! ## IPv6 -/

section Groups

variable {input rest : List Char} {c : Char}

/-- A character of an IPv6 address. -/
def IsGroupChar (c : Char) : Prop := c = ':' ∨ c = '.' ∨ isDigit 16 c = true

theorem isDigit_of_decimal (h : isDigit 10 c = true) : isDigit 16 c = true := by
  simp only [isDigit, toDigit, Option.isSome_filter] at h ⊢
  rw [Option.any_eq_true] at h ⊢
  obtain ⟨x, hx, hlt⟩ := h
  exact ⟨x, hx, decide_eq_true ((of_decide_eq_true hlt).trans (by decide))⟩

/-- What a group or an embedded IPv4 address takes off, behind its colon. -/
theorem exists_of_readSeparator {α : Type} {i : ℕ} {inner : List Char → Option (α × List Char)}
    {r : α × List Char} (hinner : ∀ text, inner text = some r →
      ∃ front, text = front ++ r.2 ∧ ∀ c ∈ front, IsGroupChar c)
    (h : readSeparator ':' i inner input = some r) :
    ∃ front, input = front ++ r.2 ∧ ∀ c ∈ front, IsGroupChar c := by
  cases i with
  | zero => exact hinner input h
  | succ i =>
    obtain ⟨text, rfl, htext⟩ := readSeparator_succ.mp h
    obtain ⟨front, rfl, hfront⟩ := hinner text htext
    refine ⟨':' :: front, rfl, fun c hc => ?_⟩
    rcases List.mem_cons.mp hc with rfl | hc
    · exact .inl rfl
    · exact hfront c hc

theorem exists_of_readIpv4Addr {r : Ipv4Addr × List Char} (text : List Char)
    (h : readIpv4Addr text = some r) :
    ∃ front, text = front ++ r.2 ∧ ∀ c ∈ front, IsGroupChar c := by
  obtain ⟨s, t, u, v, rfl, hs, ht, hu, hv, -, -⟩ := readIpv4Addr_eq_some_iff.mp h
  refine ⟨_, rfl, fun c hc => ?_⟩
  exact .inr ((mem_quadText hs ht hu hv hc).imp_right isDigit_of_decimal)

theorem exists_of_readGroup {r : ℕ × List Char} (text : List Char)
    (h : readNumber 16 4 true 65536 text = some r) :
    ∃ front, text = front ++ r.2 ∧ ∀ c ∈ front, IsGroupChar c := by
  obtain ⟨digits, rfl, hdigits, -, -⟩ := readNumber_eq_some_iff.mp h
  exact ⟨digits, rfl, fun c hc => .inr (.inr (hdigits.isDigit c hc))⟩

theorem exists_of_readGroups (limit remaining : ℕ) (input : List Char) : ∃ front,
    input = front ++ (readGroups limit remaining input).2 ∧ ∀ c ∈ front, IsGroupChar c := by
  induction remaining generalizing input with
  | zero => exact ⟨[], rfl, fun c hc => by cases hc⟩
  | succ remaining ih =>
    rw [readGroups]
    split
    case h_1 v4 rest heq =>
      split at heq
      case isTrue =>
        obtain ⟨front, hfront, hchars⟩ := exists_of_readSeparator exists_of_readIpv4Addr heq
        exact ⟨front, hfront, hchars⟩
      case isFalse => cases heq
    case h_2 =>
      split
      case h_1 group rest heq =>
        obtain ⟨front, hfront, hchars⟩ := exists_of_readSeparator exists_of_readGroup heq
        obtain ⟨front', hfront', hchars'⟩ := ih rest
        refine ⟨front ++ front', ?_, fun c hc => ?_⟩
        · rw [hfront, List.append_assoc]
          exact congrArg _ hfront'
        · rcases List.mem_append.mp hc with hc | hc
          · exact hchars c hc
          · exact hchars' c hc
      case h_2 => exact ⟨[], rfl, fun c hc => by cases hc⟩

/-- The groups in front, and those behind a `::`. -/
theorem readIpv6Addr_eq (input : List Char) : readIpv6Addr input
    = if (readGroups 8 8 input).1.1.length = 8 then
        (Ipv6Addr.ofSegments (readGroups 8 8 input).1.1).map (·, (readGroups 8 8 input).2)
      else if (readGroups 8 8 input).1.2 then none
      else
        match (readGroups 8 8 input).2 with
        | ':' :: ':' :: rest =>
          let limit := 8 - ((readGroups 8 8 input).1.1.length + 1)
          (Ipv6Addr.ofSegments ((readGroups 8 8 input).1.1
            ++ List.replicate (8 - (readGroups 8 8 input).1.1.length
                - (readGroups limit limit rest).1.1.length) 0
            ++ (readGroups limit limit rest).1.1)).map (·, (readGroups limit limit rest).2)
        | _ => none := rfl

theorem isGroupChar_of_readIpv6Addr {addr : Ipv6Addr} (h : readIpv6Addr input = some (addr, []))
    (hc : c ∈ input) : IsGroupChar c := by
  obtain ⟨front, hfront, hchars⟩ := exists_of_readGroups 8 8 input
  rw [readIpv6Addr_eq] at h
  rw [hfront, List.mem_append] at hc
  refine hc.elim (hchars c) fun hrest => ?_
  split at h
  case isTrue =>
    obtain ⟨_, -, hread⟩ := Option.map_eq_some_iff.mp h
    rw [(Prod.mk.inj hread).2] at hrest
    cases hrest
  case isFalse =>
  split at h
  case isTrue => cases h
  case isFalse =>
  split at h
  case h_2 => cases h
  case h_1 text heq =>
    obtain ⟨_, -, hread⟩ := Option.map_eq_some_iff.mp h
    rw [heq] at hrest
    obtain ⟨front', hfront', hchars'⟩ := exists_of_readGroups (8 - ((readGroups 8 8 input).1.1.length + 1))
      (8 - ((readGroups 8 8 input).1.1.length + 1)) text
    rw [(Prod.mk.inj hread).2, List.append_nil] at hfront'
    rcases List.mem_cons.mp hrest with rfl | hrest
    · exact .inl rfl
    · rcases List.mem_cons.mp hrest with rfl | hrest
      · exact .inl rfl
      · exact hchars' c (hfront' ▸ hrest)

theorem length_readGroups_le (hcolon : ':' ∉ input) : (readGroups 8 8 input).1.1.length ≤ 2 := by
  have hstop : ∀ (remaining : ℕ) (rest : List Char), remaining < 8 → ':' ∉ rest →
      readGroups 8 remaining rest = (([], false), rest) := by
    intro remaining rest hlt hrest
    cases remaining with
    | zero => rfl
    | succ remaining =>
      have hnone : ∀ {α : Type} (inner : List Char → Option (α × List Char)),
          readSeparator ':' (8 - (remaining + 1)) inner rest = none := by
        intro α inner
        obtain ⟨i, hi⟩ := Nat.exists_eq_succ_of_ne_zero (show 8 - (remaining + 1) ≠ 0 by omega)
        rw [hi, Option.eq_none_iff_forall_ne_some]
        rintro r hr
        obtain ⟨text, rfl, -⟩ := readSeparator_succ.mp hr
        exact hrest List.mem_cons_self
      rw [readGroups, hnone, hnone, ite_self]
  rw [readGroups]
  split
  case h_1 => exact le_refl 2
  case h_2 =>
    split
    case h_1 group rest heq =>
      obtain ⟨front, hfront, -⟩ := exists_of_readGroup input heq
      rw [hstop 7 rest (by decide) fun h => hcolon (hfront ▸ List.mem_append_right _ h)]
      exact Nat.le_succ 1
    case h_2 => exact Nat.zero_le 2

theorem colon_mem_of_readIpv6Addr {r : Ipv6Addr × List Char} (h : readIpv6Addr input = some r) :
    ':' ∈ input := by
  by_contra hcolon
  have hlen := length_readGroups_le hcolon
  obtain ⟨front, hfront, -⟩ := exists_of_readGroups 8 8 input
  rw [readIpv6Addr_eq] at h
  split at h
  case isTrue heq => omega
  case isFalse =>
  split at h
  case isTrue => cases h
  case isFalse =>
  split at h
  case h_2 => cases h
  case h_1 text heq =>
    refine hcolon ?_
    rw [hfront, heq]
    exact List.mem_append_right _ List.mem_cons_self

theorem readIpv4Addr_ne_of_colon (h : ':' ∈ input) (addr : Ipv4Addr) :
    readIpv4Addr input ≠ some (addr, []) := by
  intro hread
  obtain ⟨s, t, u, v, rfl, hs, ht, hu, hv, -, -⟩ := readIpv4Addr_eq_some_iff.mp hread
  rw [List.append_nil] at h
  rcases mem_quadText hs ht hu hv h with h | h
  · cases h
  · exact absurd h (by decide)

end Groups

end Ip
