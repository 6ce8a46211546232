/-
  Inkentry.Lib.WhatwgText

  Address texts in the two parsers: what the URL parser reads as an IPv6 address
  the standard library reads as the same one (`readIpv6Addr_of_ipv6Parser`), and
  what the standard library reads as an IPv4 address is a host with that
  address (`hostParser_of_readIpv4Addr`).
-/

import Mathlib.Data.Bool.AllAny
import Inkentry.Lib.Thinning
import Inkentry.Lib.Whatwg

namespace Whatwg

open Ip

/-! ## Digits -/

section Digits

variable {radix : ℕ} {digits rest input : List Char}

theorem le_foldl_digits (radix : ℕ) (l : List ℕ) (n : ℕ) :
    n * radix ^ l.length ≤ l.foldl (fun n digit => n * radix + digit) n := by
  induction l generalizing n with
  | nil => simp
  | cons d l ih =>
    calc n * radix ^ (d :: l).length = n * radix * radix ^ l.length := by
          rw [List.length_cons, Nat.pow_succ, Nat.mul_comm (radix ^ _) radix, Nat.mul_assoc]
      _ ≤ (n * radix + d) * radix ^ l.length := Nat.mul_le_mul_right _ (Nat.le_add_right _ _)
      _ ≤ _ := ih (n * radix + d)

theorem foldl_digits_lt (radix : ℕ) {l : List ℕ} (h : ∀ d ∈ l, d < radix) (n : ℕ) :
    l.foldl (fun n digit => n * radix + digit) n < (n + 1) * radix ^ l.length := by
  induction l generalizing n with
  | nil => simp
  | cons d l ih =>
    calc (d :: l).foldl (fun n digit => n * radix + digit) n
        < (n * radix + d + 1) * radix ^ l.length :=
          ih (fun d hd => h d (List.mem_cons_of_mem _ hd)) _
      _ ≤ ((n + 1) * radix) * radix ^ l.length := by
          refine Nat.mul_le_mul_right _ ?_
          have := h d List.mem_cons_self
          rw [Nat.add_mul, Nat.one_mul]
          omega
      _ = (n + 1) * radix ^ (d :: l).length := by
          rw [List.length_cons, Nat.pow_succ, Nat.mul_comm (radix ^ _) radix, Nat.mul_assoc]

theorem length_filterMap_toDigit (h : ∀ c ∈ digits, isDigit radix c = true) :
    (digits.filterMap (toDigit radix)).length = digits.length := by
  induction digits with
  | nil => rfl
  | cons c digits ih =>
    obtain ⟨d, hd⟩ := Option.isSome_iff_exists.mp (h c List.mem_cons_self)
    rw [List.filterMap_cons_some hd, List.length_cons, List.length_cons,
      ih fun c hc => h c (List.mem_cons_of_mem _ hc)]

theorem numberOf_lt (h : ∀ c ∈ digits, isDigit radix c = true) :
    numberOf radix digits < radix ^ digits.length := by
  have hdigit : ∀ d ∈ digits.filterMap (toDigit radix), d < radix := by
    intro d hd
    obtain ⟨c, -, hc⟩ := List.mem_filterMap.mp hd
    exact of_decide_eq_true (Option.filter_eq_some_iff.mp hc).2
  have hlt := foldl_digits_lt radix hdigit 0
  rwa [length_filterMap_toDigit h, Nat.zero_add, Nat.one_mul] at hlt

theorem toDigit_pos {c : Char} {d : ℕ} (h : toDigit 10 c = some d) (hne : c ≠ '0') : 0 < d := by
  obtain ⟨hvalue, -⟩ := Option.filter_eq_some_iff.mp h
  split at hvalue
  case isTrue hrange =>
    obtain rfl := Option.some.inj hvalue
    refine Nat.sub_pos_of_lt (lt_of_le_of_ne hrange.1 fun heq => hne ?_)
    exact (Char.toNat_inj.mp heq).symm
  case isFalse =>
    split at hvalue
    case isTrue => exact Option.some.inj hvalue ▸ Nat.succ_pos _
    case isFalse =>
      split at hvalue
      case isTrue => exact Option.some.inj hvalue ▸ Nat.succ_pos _
      case isFalse => cases hvalue

/-- Digits without a leading zero that write a byte are at most three. -/
theorem isOctet_of_lt (hne : digits ≠ []) (hdigits : ∀ c ∈ digits, isDigit 10 c = true)
    (hzero : digits.length > 1 → digits.head? ≠ some '0') (hlt : numberOf 10 digits < 256) :
    IsOctet digits := by
  refine ⟨hne, hdigits, ?_, fun _ hhead => ?_, hlt⟩
  · by_contra hlong
    obtain ⟨c, rest, rfl⟩ := List.exists_cons_of_ne_nil hne
    rw [List.length_cons] at hlong hzero
    obtain ⟨d, hd⟩ := Option.isSome_iff_exists.mp (hdigits c List.mem_cons_self)
    have hpos := toDigit_pos hd fun h => hzero (by omega) (by rw [h]; rfl)
    have hle := le_foldl_digits 10 (rest.filterMap (toDigit 10)) (0 * 10 + d)
    rw [length_filterMap_toDigit fun c hc => hdigits c (List.mem_cons_of_mem _ hc)] at hle
    rw [numberOf, List.filterMap_cons_some hd, List.foldl_cons] at hlt
    have hpow : 10 ^ 3 ≤ 10 ^ rest.length := Nat.pow_le_pow_right (by decide) (by omega)
    have hmul : 1 * 10 ^ rest.length ≤ (0 * 10 + d) * 10 ^ rest.length :=
      Nat.mul_le_mul_right _ (by omega)
    omega
  · by_contra hlong
    exact hzero (by omega) hhead

end Digits

/-! ## IPv6 -/

section Pieces

variable {limit room i : ℕ} {compressed : Bool} {input digits rest : List Char}

/-- One number of an embedded address, and the end or a dot behind it. -/
theorem exists_of_embeddedNumbers {left : ℕ} {numbers : List ℕ}
    (h : embeddedNumbers (left + 1) input = some numbers) : ∃ digits, IsOctet digits
      ∧ ((left = 0 ∧ input = digits ∧ numbers = [numberOf 10 digits])
        ∨ ∃ rest more, 0 < left ∧ input = digits ++ '.' :: rest
          ∧ embeddedNumbers left rest = some more ∧ numbers = numberOf 10 digits :: more) := by
  rw [embeddedNumbers] at h
  split at h
  case isTrue => cases h
  case isFalse hnot =>
  push Not at hnot
  obtain ⟨hne, hzero, hlt⟩ := hnot
  have hsplit := List.takeWhile_append_dropWhile (p := isDigit 10) (l := input)
  refine ⟨_, isOctet_of_lt hne (fun c hc => List.mem_takeWhile_imp hc) hzero (by omega), ?_⟩
  rw [drop_length_takeWhile] at h
  split at h
  -- the text ends here, so this has to be the last number
  case h_1 hend =>
    split at h
    case isFalse => cases h
    case isTrue hleft =>
      rw [hend, List.append_nil] at hsplit
      exact .inl ⟨hleft, hsplit.symm, (Option.some.inj h).symm⟩
  case h_2 c rest hrest =>
    split at h
    case isTrue => cases h
    case isFalse hdot =>
      push Not at hdot
      obtain ⟨more, hmore, hnumbers⟩ := Option.map_eq_some_iff.mp h
      obtain ⟨hleft, rfl⟩ := hdot
      rw [hrest] at hsplit
      exact .inr ⟨rest, more, Nat.pos_of_ne_zero hleft, hsplit.symm, hmore, hnumbers.symm⟩

theorem readIpv4Addr_of_embeddedPieces {pieces : List UInt16} (h : embeddedPieces input = some pieces) :
    ∃ addr, readIpv4Addr input = some (addr, [])
      ∧ pieces = [segment addr.a addr.b, segment addr.c addr.d] := by
  rw [embeddedPieces] at h
  split at h
  case h_2 => cases h
  case h_1 a b c d hnumbers =>
    obtain ⟨s, hs, ⟨hleft, -⟩ | ⟨rest, more, -, rfl, hmore, hn⟩⟩ := exists_of_embeddedNumbers hnumbers
    · cases hleft
    obtain ⟨rfl, rfl⟩ := List.cons.inj hn
    obtain ⟨t, ht, ⟨hleft, -⟩ | ⟨rest, more, -, rfl, hmore, hn⟩⟩ := exists_of_embeddedNumbers hmore
    · cases hleft
    obtain ⟨rfl, rfl⟩ := List.cons.inj hn
    obtain ⟨u, hu, ⟨hleft, -⟩ | ⟨rest, more, -, rfl, hmore, hn⟩⟩ := exists_of_embeddedNumbers hmore
    · cases hleft
    obtain ⟨rfl, rfl⟩ := List.cons.inj hn
    obtain ⟨v, hv, ⟨-, rfl, hn⟩ | ⟨rest, more, hleft, -⟩⟩ := exists_of_embeddedNumbers hmore
    · obtain ⟨rfl, -⟩ := List.cons.inj hn
      refine ⟨quadAddr s t u rest, readIpv4Addr_eq_some_iff.mpr ⟨s, t, u, rest, ?_, hs, ht, hu, hv, rfl,
        fun c hc => by cases hc⟩, ?_⟩
      · rw [List.append_nil, quadText]
      · have hbyte : ∀ {digits : List Char}, IsOctet digits →
            (UInt8.ofNat (numberOf 10 digits)).toNat = numberOf 10 digits := by
          intro digits hdigits
          rw [UInt8.toNat_ofNat', Nat.mod_eq_of_lt hdigits.lt]
        rw [← Option.some.inj h, quadAddr]
        simp only [Ip.segment, hbyte hs, hbyte ht, hbyte hu, hbyte hv]
    · exact absurd hleft (lt_irrefl 0)

/-- The input of the groups from a group on: behind the colon, but for the first group. -/
def separated (i : ℕ) (input : List Char) : List Char := if i = 0 then input else ':' :: input

theorem readSeparator_separated {α : Type} (inner : List Char → Option (α × List Char)) :
    readSeparator ':' i inner (separated i input) = inner input := by
  cases i with
  | zero => rfl
  | succ i => simp [readSeparator, separated]

theorem readNumber_of_noDigit {radix maxDigits bound : ℕ} {zeros : Bool}
    (h : NoDigit radix input) : readNumber radix maxDigits zeros bound input = none := by
  rw [Option.eq_none_iff_forall_ne_some]
  rintro ⟨n, rest⟩ hread
  obtain ⟨digits, rfl, hnumber, -, -⟩ := readNumber_eq_some_iff.mp hread
  obtain ⟨c, more, rfl⟩ := List.exists_cons_of_ne_nil hnumber.ne_nil
  exact absurd (h c rfl) (by rw [hnumber.isDigit c List.mem_cons_self]; decide)

theorem readIpv4Addr_of_noDot (hdigits : ∀ c ∈ digits, isDigit 16 c = true)
    (hrest : NoDigit 16 rest) (hdot : rest.head? ≠ some '.') :
    readIpv4Addr (digits ++ rest) = none := by
  rw [Option.eq_none_iff_forall_ne_some]
  rintro ⟨addr, rest'⟩ hread
  obtain ⟨s, t, u, v, hinput, hs, -, -, -, -, -⟩ := readIpv4Addr_eq_some_iff.mp hread
  have hnodot : NoDigit 16 ('.' :: (t ++ '.' :: (u ++ '.' :: v)) ++ rest') := by
    intro c hc
    obtain rfl := Option.some.inj hc
    decide
  have hleft := takeWhile_isDigit hdigits hrest
  rw [hinput, quadText, List.append_assoc,
    takeWhile_isDigit (fun c hc => isDigit_of_decimal (hs.isDigit c hc)) hnodot] at hleft
  rw [hleft, quadText, List.append_assoc] at hinput
  rw [List.append_cancel_left hinput] at hdot
  exact hdot rfl

theorem readIpv4Addr_of_noDigit (hrest : NoDigit 16 rest) (hdot : rest.head? ≠ some '.') :
    readIpv4Addr rest = none := by
  have hdigits : ∀ c ∈ ([] : List Char), isDigit 16 c = true := fun c hc => by cases hc
  exact readIpv4Addr_of_noDot hdigits hrest hdot

theorem readGroups_of_none (h4 : readSeparator ':' (limit - (room + 1)) readIpv4Addr input = none)
    (h16 : readSeparator ':' (limit - (room + 1)) (readNumber 16 4 true 65536) input = none) :
    readGroups limit (room + 1) input = (([], false), input) := by
  rw [readGroups]
  simp only [h4, h16, ite_self]

theorem readGroups_of_noDigit (limit room : ℕ) (h : NoDigit 16 input) (hdot : input.head? ≠ some '.') :
    readGroups limit (room + 1) (separated (limit - (room + 1)) input)
      = (([], false), separated (limit - (room + 1)) input) := by
  refine readGroups_of_none ?_ ?_
  · rw [readSeparator_separated]
    exact readIpv4Addr_of_noDigit h hdot
  · rw [readSeparator_separated, readNumber_of_noDigit h]

theorem readGroups_nil (limit remaining : ℕ) : readGroups limit remaining [] = (([], false), []) := by
  cases remaining with
  | zero => rfl
  | succ room =>
    have hnone : ∀ {α : Type} (inner : List Char → Option (α × List Char)), inner [] = none →
        readSeparator ':' (limit - (room + 1)) inner [] = none := by
      intro α inner hinner
      rw [readSeparator]
      split
      · rfl
      · exact hinner
    have hnodigit : NoDigit 16 [] := fun c hc => by cases hc
    exact readGroups_of_none (hnone _ (readIpv4Addr_of_noDigit hnodigit (by simp)))
      (hnone _ (readNumber_of_noDigit hnodigit))

/-- What the two readers have in common from a group on: the groups, and that the input ends behind
them or goes on with `::` and the groups behind it. -/
def ReadsAlike (limit room : ℕ) (compressed : Bool) (input : List Char)
    (pieces : List UInt16 × Option (List UInt16)) : Prop :=
  ∃ ipv4, (readGroups limit room (separated (limit - room) input)).1 = (pieces.1, ipv4)
    ∧ (pieces.2 = none ∧ (readGroups limit room (separated (limit - room) input)).2 = []
      ∨ ∃ after text more, compressed = false ∧ ipv4 = false ∧ pieces.1.length < room
        ∧ (readGroups limit room (separated (limit - room) input)).2 = ':' :: ':' :: text
        ∧ pieces.2 = some after
        ∧ readPieces (room - (pieces.1.length + 1)) true text = some (after, more))

theorem noDigit_cons {c : Char} (h : isDigit 16 c = false) : NoDigit 16 (c :: rest) := by
  intro d hd
  obtain rfl := Option.some.inj hd
  exact h

theorem readsAlike_of_readPieces (hroom : room ≤ limit) (hfirst : 0 < limit - room → input ≠ [])
    (hcolon : limit - room = 0 → compressed = true ∨ input.head? ≠ some ':')
    {pieces : List UInt16 × Option (List UInt16)} (h : readPieces room compressed input = some pieces) :
    ReadsAlike limit room compressed input pieces := by
  induction room generalizing input pieces with
  | zero =>
    cases input with
    | nil =>
      obtain rfl := Option.some.inj h
      have hindex : limit - 0 = 0 := by
        by_contra hpos
        exact hfirst (Nat.pos_of_ne_zero hpos) rfl
      exact ⟨false, rfl, .inl ⟨rfl, by rw [separated, if_pos hindex]; rfl⟩⟩
    | cons c input => cases h
  | succ room ih =>
    cases input with
    | nil =>
      obtain rfl := Option.some.inj h
      have hindex : limit - (room + 1) = 0 := by
        by_contra hpos
        exact hfirst (Nat.pos_of_ne_zero hpos) rfl
      rw [ReadsAlike, separated, if_pos hindex, readGroups_nil]
      exact ⟨false, rfl, .inl ⟨rfl, rfl⟩⟩
    | cons c input =>
      rw [readPieces] at h
      split at h
      case isTrue hc =>
        subst hc
        split at h
        case isTrue => cases h
        case isFalse hcompressed =>
          obtain ⟨after, hafter, rfl⟩ := Option.map_eq_some_iff.mp h
          have hindex : limit - (room + 1) ≠ 0 := fun hzero =>
            (hcolon hzero).elim hcompressed fun hhead => hhead rfl
          rw [ReadsAlike, readGroups_of_noDigit _ _ (noDigit_cons (by decide)) (by simp)]
          exact ⟨false, rfl, .inr ⟨after.1, input, after.2, eq_false_of_ne_true hcompressed,
            rfl, Nat.succ_pos _, by rw [separated, if_neg hindex], rfl, hafter⟩⟩
      case isFalse hc =>
        set text := c :: input with htext
        set digits := (text.takeWhile (isDigit 16)).take 4 with hdigits_eq
        have hdigits : ∀ d ∈ digits, isDigit 16 d = true := fun d hd =>
          List.mem_takeWhile_imp (List.mem_of_mem_take hd)
        have hlength : digits.length ≤ 4 := List.length_take_le 4 _
        have hsplit : text = digits ++ text.drop digits.length := by
          obtain ⟨more, hmore⟩ := (List.take_prefix 4 (text.takeWhile (isDigit 16))).trans
            (List.takeWhile_prefix (isDigit 16))
          rw [← hdigits_eq] at hmore
          rw [← hmore, List.drop_left]
        have hgroup : digits ≠ [] → NoDigit 16 (text.drop digits.length) →
            readNumber 16 4 true 65536 text
              = some (numberOf 16 digits, text.drop digits.length) := by
          intro hne hrest
          refine readNumber_eq_some_iff.mpr ⟨digits, hsplit, ⟨hne, hdigits, hlength, nofun, ?_⟩, rfl, hrest⟩
          exact (numberOf_lt hdigits).trans_le (Nat.pow_le_pow_right (by decide) hlength)
        -- a group is read when no embedded address is
        have hread : ∀ rest, text.drop digits.length = rest → digits ≠ [] → NoDigit 16 rest →
            rest.head? ≠ some '.' → readGroups limit (room + 1) (separated (limit - (room + 1)) text)
              = (((.ofNat (numberOf 16 digits) :: (readGroups limit room rest).1.1),
                  (readGroups limit room rest).1.2), (readGroups limit room rest).2) := by
          intro rest hrest hne hnodigit hdot
          have h4 : readIpv4Addr text = none := by
            rw [hsplit, hrest]
            exact readIpv4Addr_of_noDot hdigits hnodigit hdot
          rw [readGroups, readSeparator_separated, h4, readSeparator_separated,
            hgroup hne (hrest ▸ hnodigit), hrest, ite_self]
        simp only at h
        split at h
        case h_1 hend =>
          obtain rfl := Option.some.inj h
          have hne : digits ≠ [] := by
            intro hnil
            rw [hnil] at hend
            cases hend
          rw [ReadsAlike, hread [] hend hne (fun c hc => by cases hc) (by simp), readGroups_nil]
          exact ⟨false, rfl, .inl ⟨rfl, rfl⟩⟩
        case h_2 d rest hrest =>
          split at h
          case isTrue hd =>
            split at h
            case isTrue => cases h
            case isFalse hroom' =>
              push Not at hroom'
              obtain ⟨embedded, hembedded, rfl⟩ := Option.map_eq_some_iff.mp h
              obtain ⟨addr, haddr, rfl⟩ := readIpv4Addr_of_embeddedPieces hembedded
              have hread4 : readGroups limit (room + 1) (separated (limit - (room + 1)) text)
                  = (([segment addr.a addr.b, segment addr.c addr.d], true), []) := by
                rw [readGroups, readSeparator_separated, haddr,
                  if_pos (Nat.one_le_iff_ne_zero.mpr hroom'.2)]
              rw [ReadsAlike, hread4]
              exact ⟨true, rfl, .inl ⟨rfl, rfl⟩⟩
          case isFalse hd =>
            split at h
            case isFalse => cases h
            case isTrue hcolon' =>
              obtain ⟨rfl, hrestne⟩ := hcolon'
              obtain ⟨more, hmore, rfl⟩ := Option.map_eq_some_iff.mp h
              have hne : digits ≠ [] := by
                intro hnil
                rw [hnil] at hrest
                exact hc (List.cons.inj hrest).1
              have hindex : limit - room ≠ 0 := by omega
              have hnext : separated (limit - room) rest = ':' :: rest := if_neg hindex
              obtain ⟨ipv4, hgroups, hend⟩ := ih (by omega) (fun _ => hrestne)
                (fun hzero => absurd hzero hindex) hmore
              rw [hnext] at hgroups hend
              rw [ReadsAlike, hread (':' :: rest) hrest hne (noDigit_cons (by decide)) (by simp)]
              refine ⟨ipv4, by rw [hgroups], hend.imp id ?_⟩
              rintro ⟨after, text', more', hcompressed, hipv4, hlt, htext', hafter, hpieces⟩
              refine ⟨after, text', more', hcompressed, hipv4, ?_, htext', hafter, ?_⟩
              · rw [List.length_cons]
                omega
              · rw [List.length_cons, Nat.succ_sub_succ]
                exact hpieces

/-- What the URL parser reads as an IPv6 address, the standard library reads as the same. -/
theorem readIpv6Addr_of_ipv6Parser {addr : Ipv6Addr} (h : ipv6Parser input = some addr) :
    readIpv6Addr input = some (addr, []) := by
  -- behind a `::` both read the same groups to the end of the text
  have htail : ∀ {room : ℕ} {text : List Char} {after : List UInt16} {more},
      readPieces room true text = some (after, more) →
      ∃ ipv4, readGroups room room text = ((after, ipv4), []) := by
    intro room text after more hread
    obtain ⟨ipv4, hgroups, ⟨-, hend⟩ | ⟨_, _, _, hfalse, -⟩⟩ := readsAlike_of_readPieces (le_refl room)
      (fun hpos => absurd hpos (by omega)) (fun _ => .inl rfl) hread
    · have hsame : separated (room - room) text = text := if_pos (Nat.sub_self room)
      rw [hsame] at hgroups hend
      exact ⟨ipv4, Prod.ext hgroups hend⟩
    · cases hfalse
  rw [readIpv6Addr_eq]
  rw [ipv6Parser.eq_def] at h
  split at h
  -- `::` in front, and no group before it
  case h_1 rest =>
    obtain ⟨pieces, hpieces, haddr⟩ := Option.bind_eq_some_iff.mp h
    obtain ⟨ipv4, hgroups⟩ := htail hpieces
    have hfront : readGroups 8 8 (':' :: ':' :: rest) = (([], false), ':' :: ':' :: rest) :=
      readGroups_of_noDigit 8 7 (noDigit_cons (by decide)) (by simp)
    rw [hfront]
    simp only [List.length_nil, hgroups]
    rw [if_neg (by decide), if_neg (by decide)]
    rw [ipv6OfPieces] at haddr
    exact Option.map_eq_some_iff.mpr ⟨addr, haddr, rfl⟩
  case h_2 => cases h
  case h_3 hnocc hnoc =>
    obtain ⟨pieces, hpieces, haddr⟩ := Option.bind_eq_some_iff.mp h
    have hhead : input.head? ≠ some ':' := by
      intro hhead
      obtain ⟨rest, rfl⟩ := List.head?_eq_some_iff.mp hhead
      exact hnoc rest rfl
    obtain ⟨ipv4, hgroups, hend⟩ := readsAlike_of_readPieces (le_refl 8)
      (fun hpos => absurd hpos (by omega)) (fun _ => .inr hhead) hpieces
    have hsame : separated (8 - 8) input = input := rfl
    rw [hsame] at hgroups hend
    rw [hgroups]
    obtain ⟨before, behind⟩ := pieces
    -- eight groups to the end, or fewer up to a `::`
    rcases hend with ⟨rfl, hend⟩ | ⟨after, text, more, -, rfl, hlt, hend, rfl, hafter⟩
    · rw [ipv6OfPieces] at haddr
      have hlen : before.length = 8 := by
        rw [Ipv6Addr.ofSegments] at haddr
        split at haddr
        case isTrue hlen => exact hlen
        case isFalse => cases haddr
      rw [if_pos hlen, hend]
      exact Option.map_eq_some_iff.mpr ⟨addr, haddr, rfl⟩
    · obtain ⟨ipv4, htext⟩ := htail hafter
      rw [hend]
      simp only [htext]
      rw [if_neg (Nat.ne_of_lt hlt), if_neg (by decide)]
      exact Option.map_eq_some_iff.mpr ⟨addr, haddr, rfl⟩

end Pieces

/-! ## IPv4 -/

section Quads

variable {s t u v : List Char} {name : List Char} (codec : Codec)

theorem not_mem_of_isDigit {radix : ℕ} {c : Char} {digits : List Char}
    (h : ∀ c ∈ digits, isDigit radix c = true) (hc : isDigit radix c = false) : c ∉ digits :=
  fun hmem => absurd (h c hmem) (by rw [hc]; decide)

theorem ipv4Number_of_isOctet (hs : IsOctet s) : ipv4Number s = some (numberOf 10 s) := by
  have hradix : radixOf s = (10, s) := by
    rw [radixOf.eq_def]
    split
    case h_1 c rest => exact absurd (hs.noZero rfl rfl) (by simp)
    case h_2 => rfl
  rw [ipv4Number, hradix]
  simp only [if_neg hs.ne_nil, if_pos (List.all_eq_true.mpr hs.isDigit)]

theorem splitOn_quadText (hs : IsOctet s) (ht : IsOctet t) (hu : IsOctet u) (hv : IsOctet v) :
    (quadText s t u v).splitOn '.' = [s, t, u, v] := by
  have hdot : ∀ {digits : List Char}, IsOctet digits → '.' ∉ digits := fun h =>
    not_mem_of_isDigit h.isDigit (by decide)
  rw [quadText, List.splitOn_append_cons_self_of_not_mem (hdot hs),
    List.splitOn_append_cons_self_of_not_mem (hdot ht),
    List.splitOn_append_cons_self_of_not_mem (hdot hu), List.splitOn_eq_singleton (hdot hv)]

theorem dottedParts_quadText (hs : IsOctet s) (ht : IsOctet t) (hu : IsOctet u) (hv : IsOctet v) :
    dottedParts (quadText s t u v) = [s, t, u, v] := by
  rw [dottedParts, splitOn_quadText hs ht hu hv]
  simp [hv.ne_nil]

theorem ipv4OfNumbers_bytes {a b c d : ℕ} (ha : a < 256) (hb : b < 256) (hc : c < 256) (hd : d < 256) :
    ipv4OfNumbers [a, b, c, d] = some ⟨.ofNat a, .ofNat b, .ofNat c, .ofNat d⟩ := by
  have hbyte : ∀ {m n : ℕ}, m % 256 = n → n < 256 → UInt8.ofNat m = UInt8.ofNat n := by
    intro m n hmod hn
    refine UInt8.toNat_inj.mp ?_
    rw [UInt8.toNat_ofNat', UInt8.toNat_ofNat', hmod, Nat.mod_eq_of_lt hn]
  have hvalue : d + (a * 256 ^ 3 + (b * 256 ^ 2 + (c * 256 ^ 1 + 0)))
      = a * 16777216 + b * 65536 + c * 256 + d := by omega
  show (if (decide (a > 255) || (decide (b > 255) || (decide (c > 255) || false))) = true then none
    else if d ≥ 256 ^ 1 then none
    else some (ipv4OfNat (d + (a * 256 ^ 3 + (b * 256 ^ 2 + (c * 256 ^ 1 + 0)))))) = _
  rw [if_neg, if_neg (by omega), hvalue, ipv4OfNat]
  · set value := a * 16777216 + b * 65536 + c * 256 + d with hsum
    rw [hbyte (m := value / 256 ^ 3) (n := a) (by omega) ha,
      hbyte (m := value / 256 ^ 2) (n := b) (by omega) hb,
      hbyte (m := value / 256) (n := c) (by omega) hc, hbyte (m := value) (n := d) (by omega) hd]
  · simp only [Bool.or_false, Bool.or_eq_true, decide_eq_true_eq]
    omega

theorem ipv4Parser_quadText (hs : IsOctet s) (ht : IsOctet t) (hu : IsOctet u) (hv : IsOctet v) :
    ipv4Parser (quadText s t u v) = some (quadAddr s t u v) := by
  rw [ipv4Parser, dottedParts_quadText hs ht hu hv, quadAddr,
    ← ipv4OfNumbers_bytes hs.lt ht.lt hu.lt hv.lt]
  simp only [List.mapM_cons, List.mapM_nil, ipv4Number_of_isOctet hs, ipv4Number_of_isOctet ht,
    ipv4Number_of_isOctet hu, ipv4Number_of_isOctet hv]
  rfl

theorem decimal_digit {c : Char} (h : isDigit 10 c = true) : c.toNat < 0x80 ∧ isForbidden c = false
    ∧ c.toLower = c ∧ c ≠ 'x' ∧ c ≠ '%' ∧ c ≠ '[' := by
  have hrange : 48 ≤ c.toNat ∧ c.toNat ≤ 57 := by
    obtain ⟨d, hd⟩ := Option.isSome_iff_exists.mp h
    obtain ⟨hvalue, hlt⟩ := Option.filter_eq_some_iff.mp hd
    have hlt' : d < 10 := of_decide_eq_true hlt
    split at hvalue
    case isTrue hrange => exact hrange
    case isFalse =>
      split at hvalue
      case isTrue => exact absurd (Option.some.inj hvalue) (by omega)
      case isFalse =>
        split at hvalue
        case isTrue => exact absurd (Option.some.inj hvalue) (by omega)
        case isFalse => cases hvalue
  have hall : ∀ n < 58, 48 ≤ n → isForbidden (Char.ofNat n) = false
      ∧ (Char.ofNat n).toLower = Char.ofNat n ∧ Char.ofNat n ≠ 'x' ∧ Char.ofNat n ≠ '%'
      ∧ Char.ofNat n ≠ '[' := by decide
  obtain ⟨hforbidden, hlower, hx, hpercent, hbracket⟩ := hall c.toNat (by omega) hrange.1
  rw [Char.ofNat_toNat] at hforbidden hlower hx hpercent hbracket
  exact ⟨by omega, hforbidden, hlower, hx, hpercent, hbracket⟩

theorem hostParser_of_plain (hne : name ≠ []) (hbracket : '[' ∉ name) (hpercent : '%' ∉ name)
    (hplain : isPlain name = true) (hlower : ∀ c ∈ name, c.toLower = c)
    (hforbidden : ∀ c ∈ name, isForbidden c = false) :
    hostParser codec name = if endsInANumber name then (ipv4Parser name).map .ipv4
      else some (.domain name) := by
  have hhead : name.head? ≠ some '[' := fun h => hbracket (List.mem_of_mem_head? h)
  have hdecoded : percentDecoded codec name = name := by
    rw [percentDecoded, if_neg (by simpa using hpercent)]
  have hmap : name.map Char.toLower = name := by
    conv_rhs => rw [← List.map_id name]
    exact List.map_congr_left hlower
  have hany : name.any isForbidden = false := by
    rw [List.any_eq_false]
    exact fun c hc => by rw [hforbidden c hc]; decide
  rw [hostParser, if_neg hhead, hdecoded, domainToAscii, if_pos hplain, hmap, Option.bind_some,
    if_neg]
  rintro (h | h)
  · exact hne h
  · rw [hany] at h
    cases h

/-- What the standard library reads as an IPv4 address is a host with that address. -/
theorem hostParser_of_readIpv4Addr {addr : Ipv4Addr} (h : readIpv4Addr name = some (addr, [])) :
    hostParser codec name = some (.ipv4 addr) := by
  obtain ⟨s, t, u, v, rfl, hs, ht, hu, hv, rfl, -⟩ := readIpv4Addr_eq_some_iff.mp h
  rw [List.append_nil]
  have hchar : ∀ c ∈ quadText s t u v, c = '.' ∨ isDigit 10 c = true := fun c hc =>
    mem_quadText hs ht hu hv hc
  -- digits and dots are left as they are by every step before the parse
  have hplain : isPlain (quadText s t u v) = true := by
    rw [isPlain, Bool.and_eq_true, splitOn_quadText hs ht hu hv]
    refine ⟨List.all_eq_true.mpr fun c hc => ?_, List.all_eq_true.mpr fun label hlabel => ?_⟩
    · rcases hchar c hc with rfl | hdigit
      · decide
      · exact decide_eq_true (decimal_digit hdigit).1
    · have hoctet : IsOctet label := by
        simp only [List.mem_cons, List.not_mem_nil, or_false] at hlabel
        rcases hlabel with rfl | rfl | rfl | rfl <;> assumption
      obtain ⟨c, rest, rfl⟩ := List.exists_cons_of_ne_nil hoctet.ne_nil
      obtain ⟨-, -, hlower, hx, -, -⟩ := decimal_digit (hoctet.isDigit c List.mem_cons_self)
      rw [List.map_cons, hlower]
      show (!(('x' == c) && _)) = true
      rw [beq_false_of_ne hx.symm, Bool.false_and, Bool.not_false]
  have hdots : ∀ {p : Char → Prop}, p '.' → (∀ c, isDigit 10 c = true → p c) →
      ∀ c ∈ quadText s t u v, p c := by
    intro p hdot hdigit c hc
    rcases hchar c hc with rfl | h
    · exact hdot
    · exact hdigit c h
  rw [hostParser_of_plain codec (by simp [quadText])
    (fun h => hdots (p := (· ≠ '[')) (by decide) (fun c hc => (decimal_digit hc).2.2.2.2.2) _ h rfl)
    (fun h => hdots (p := (· ≠ '%')) (by decide) (fun c hc => (decimal_digit hc).2.2.2.2.1) _ h rfl)
    hplain (hdots (by decide) fun c hc => (decimal_digit hc).2.2.1)
    (hdots (by decide) fun c hc => (decimal_digit hc).2.1), ipv4Parser_quadText hs ht hu hv, if_pos]
  · rfl
  · rw [endsInANumber, dottedParts_quadText hs ht hu hv]
    simp [hv.ne_nil, List.all_eq_true.mpr hv.isDigit]

end Quads

/-! ## The input as the parser reads it -/

section Cleaning

variable {front rest : List Char}

theorem tab_of_control {c : Char} (h : isControlOrSpace c = false) : isTabOrNewline c = false := by
  by_contra htab
  simp only [isTabOrNewline, Bool.or_eq_true, decide_eq_true_eq, Bool.not_eq_false] at htab
  rcases htab with (rfl | rfl) | rfl <;> exact absurd h (by decide)

/-- What is behind a front, as the parser reads it. -/
def cleanedBack (rest : List Char) : List Char :=
  (rest.rdropWhile isControlOrSpace).filter (!isTabOrNewline ·)

/-- A front without control characters, spaces, tabs and newlines stays. -/
theorem cleaned_append (hne : front ≠ []) (hfront : ∀ c ∈ front, isControlOrSpace c = false)
    (rest : List Char) : cleaned (front ++ rest) = front ++ cleanedBack rest := by
  have htab : ∀ c ∈ front, isTabOrNewline c = false := fun c hc => tab_of_control (hfront c hc)
  have hleft : (front ++ rest).dropWhile isControlOrSpace = front ++ rest := by
    obtain ⟨c, more, rfl⟩ := List.exists_cons_of_ne_nil hne
    rw [List.cons_append, List.dropWhile_cons, if_neg]
    rw [hfront c List.mem_cons_self]
    decide
  have hright : (front ++ rest).rdropWhile isControlOrSpace
      = front ++ rest.rdropWhile isControlOrSpace := by
    have hkeep : front.reverse.dropWhile isControlOrSpace = front.reverse := by
      refine List.dropWhile_eq_self_iff.mpr fun hpos => ?_
      rw [hfront _ (List.mem_reverse.mp (List.getElem_mem hpos))]
      decide
    rw [List.rdropWhile, List.rdropWhile, List.reverse_append, List.dropWhile_append, hkeep]
    split
    case isTrue hempty => rw [List.isEmpty_iff.mp hempty, List.reverse_reverse, List.reverse_nil, List.append_nil]
    case isFalse => rw [List.reverse_append, List.reverse_reverse]
  have hkept : front.filter (!isTabOrNewline ·) = front :=
    List.filter_eq_self.mpr fun c hc => by rw [htab c hc]; rfl
  rw [cleaned, hleft, hright, List.filter_append, hkept, cleanedBack]

theorem thins_cleanedBack (rest : List Char) : Thins isControlOrSpace rest (cleanedBack rest) := by
  refine (Thins.rdropWhile _ rest).trans (Thins.filter (fun c hc => ?_) _)
  simp only [isTabOrNewline, Bool.not_eq_eq_eq_not, Bool.not_false, Bool.or_eq_true,
    decide_eq_true_eq] at hc
  rcases hc with (rfl | rfl) | rfl <;> decide

theorem parse_http (codec : Codec) (rest : List Char) : parse codec ("http://".toList ++ rest)
    = parseSpecial codec "http".toList 80 ("//".toList ++ cleanedBack rest) := by
  rw [parse, cleaned_append (by decide) (List.all_iff_forall_prop.mp (by decide))]
  rfl

theorem parse_https (codec : Codec) (rest : List Char) : parse codec ("https://".toList ++ rest)
    = parseSpecial codec "https".toList 443 ("//".toList ++ cleanedBack rest) := by
  rw [parse, cleaned_append (by decide) (List.all_iff_forall_prop.mp (by decide))]
  rfl

theorem parseSpecial_of_authority (codec : Codec) (scheme : List Char) (default : ℕ)
    (hne : rest.takeWhile isAuthorityChar ≠ []) :
    parseSpecial codec scheme default ("//".toList ++ rest)
      = let hostPort := (rest.takeWhile isAuthorityChar).rtakeWhile (· ≠ '@')
        let text := hostText false hostPort
        (hostParser codec text).bind fun host =>
          (portParser default (hostPort.drop text.length)).map fun port =>
            { scheme := scheme
              host := host
              port := port
              path := pathParser ((rest.dropWhile isAuthorityChar).takeWhile isPathChar)
              queryAndFragment := (rest.dropWhile isAuthorityChar).dropWhile isPathChar } := by
  have hslash : ("//".toList ++ rest).dropWhile isSlash = rest := by
    show rest.dropWhile isSlash = rest
    cases rest with
    | nil => rfl
    | cons c rest =>
      rw [List.dropWhile_cons, if_neg]
      intro hc
      refine hne ?_
      rw [List.takeWhile_cons, if_neg]
      simp [isAuthorityChar, hc]
  rw [parseSpecial, hslash]

/-- The host text is the text up to its colon where there is no bracket. -/
theorem hostText_of_noBracket {text : List Char} (hbracket : '[' ∉ text) :
    hostText false text = text.takeWhile (· ≠ ':') := by
  induction text with
  | nil => rfl
  | cons c text ih =>
    have hc : c ≠ '[' := fun h => hbracket (h ▸ List.mem_cons_self)
    rw [hostText, List.takeWhile_cons]
    by_cases hcolon : c = ':'
    · simp [hcolon]
    · have hstay : (if c = '[' then true else if c = ']' then false else false) = false := by
        rw [if_neg hc, ite_self]
      rw [if_neg fun h => hcolon h.1, hstay, if_pos (by simpa using hcolon),
        ih fun h => hbracket (List.mem_cons_of_mem _ h)]

theorem hostText_append {text : List Char} (hbracket : '[' ∉ text) (hcolon : ':' ∉ text) :
    hostText false (text ++ ':' :: rest) = text := by
  induction text with
  | nil => rfl
  | cons c text ih =>
    have hc : c ≠ '[' := fun h => hbracket (h ▸ List.mem_cons_self)
    have hc' : c ≠ ':' := fun h => hcolon (h ▸ List.mem_cons_self)
    have hstay : (if c = '[' then true else if c = ']' then false else false) = false := by
      rw [if_neg hc, ite_self]
    rw [List.cons_append, hostText, if_neg fun h => hc' h.1, hstay,
      ih (fun h => hbracket (List.mem_cons_of_mem _ h)) fun h => hcolon (List.mem_cons_of_mem _ h)]

theorem hostText_prefix (inBrackets : Bool) (text : List Char) : hostText inBrackets text <+: text := by
  induction text generalizing inBrackets with
  | nil => exact List.prefix_rfl
  | cons c text ih =>
    rw [hostText]
    split
    · exact List.nil_prefix
    · exact (List.prefix_cons_inj c).mpr (ih _)

end Cleaning

end Whatwg
