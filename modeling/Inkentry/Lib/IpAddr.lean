/-
  Inkentry.Lib.IpAddr

  IP addresses as the standard library has them: an IPv4 or an IPv6 address,
  its canonical form (an IPv4-mapped IPv6 address is the IPv4 address), its
  display, and the parser for its textual forms.

  The parser reads a prefix of its input and returns the rest; reading that
  fails consumes nothing.
-/

import Mathlib.Data.List.Basic

namespace Ip

structure Ipv4Addr where
  a : UInt8
  b : UInt8
  c : UInt8
  d : UInt8
  deriving DecidableEq, Repr

structure Ipv6Addr where
  segments : List UInt16
  eight : segments.length = 8
  deriving DecidableEq, Repr

inductive IpAddr where
  | v4 (addr : Ipv4Addr)
  | v6 (addr : Ipv6Addr)
  deriving DecidableEq, Repr

/-! ## Canonical form -/

/-- The high and the low byte of a segment. -/
def octets (segment : UInt16) : UInt8 × UInt8 :=
  (.ofNat (segment.toNat / 256), .ofNat (segment.toNat % 256))

/-- `::ffff:a.b.c.d` -/
def Ipv6Addr.toIpv4Mapped (addr : Ipv6Addr) : Option Ipv4Addr :=
  match addr.segments with
  | [0, 0, 0, 0, 0, 0xffff, ab, cd] =>
    some ⟨(octets ab).1, (octets ab).2, (octets cd).1, (octets cd).2⟩
  | _ => none

def toCanonical : IpAddr → IpAddr
  | .v4 addr => .v4 addr
  | .v6 addr => (addr.toIpv4Mapped.map .v4).getD (.v6 addr)

/-- A segment from its high and its low byte. -/
def segment (high low : UInt8) : UInt16 := .ofNat (high.toNat * 256 + low.toNat)

/-- The IPv6 spelling of an IPv4 address. -/
def Ipv4Addr.toIpv6Mapped (addr : Ipv4Addr) : Ipv6Addr :=
  ⟨[0, 0, 0, 0, 0, 0xffff, segment addr.a addr.b, segment addr.c addr.d], rfl⟩

theorem octets_segment (high low : UInt8) : octets (segment high low) = (high, low) := by
  have hhigh : high.toNat < 256 := high.toNat_lt
  have hlow : low.toNat < 256 := low.toNat_lt
  have hval : (segment high low).toNat = high.toNat * 256 + low.toNat := by
    rw [segment, UInt16.toNat_ofNat']
    exact Nat.mod_eq_of_lt (by omega)
  rw [octets, hval]
  have hdiv : (high.toNat * 256 + low.toNat) / 256 = high.toNat := by omega
  have hmod : (high.toNat * 256 + low.toNat) % 256 = low.toNat := by omega
  rw [hdiv, hmod, UInt8.ofNat_toNat, UInt8.ofNat_toNat]

theorem toCanonical_toIpv6Mapped (addr : Ipv4Addr) :
    toCanonical (.v6 addr.toIpv6Mapped) = toCanonical (.v4 addr) := by
  have hmapped : addr.toIpv6Mapped.toIpv4Mapped = some addr := by
    show some (⟨(octets (segment addr.a addr.b)).1, (octets (segment addr.a addr.b)).2,
      (octets (segment addr.c addr.d)).1, (octets (segment addr.c addr.d)).2⟩ : Ipv4Addr) = some addr
    rw [octets_segment, octets_segment]
  show (addr.toIpv6Mapped.toIpv4Mapped.map IpAddr.v4).getD (.v6 addr.toIpv6Mapped) = .v4 addr
  rw [hmapped]
  rfl

/-! ## Display -/

/-- A number in a radix, without padding and in lower case. -/
def showNumber (radix n : Nat) : String := String.ofList (Nat.toDigits radix n)

def Ipv4Addr.display (addr : Ipv4Addr) : String :=
  ".".intercalate ([addr.a, addr.b, addr.c, addr.d].map fun octet => showNumber 10 octet.toNat)

/-- A run of zero segments: where it starts, and how long it is. -/
structure Span where
  start : Nat
  len : Nat

/-- The first of the longest runs of zero segments. -/
def longestZeroes : (i : Nat) → (longest current : Span) → List UInt16 → Span
  | _, longest, _, [] => longest
  | i, longest, current, segment :: segments =>
    if segment = 0 then
      let current := ⟨if current.len = 0 then i else current.start, current.len + 1⟩
      longestZeroes (i + 1) (if current.len > longest.len then current else longest) current segments
    else longestZeroes (i + 1) longest ⟨0, 0⟩ segments

def showSegments (segments : List UInt16) : String :=
  ":".intercalate (segments.map fun segment => showNumber 16 segment.toNat)

def Ipv6Addr.display (addr : Ipv6Addr) : String :=
  match addr.toIpv4Mapped with
  | some v4 => "::ffff:" ++ v4.display
  | none =>
    let zeroes := longestZeroes 0 ⟨0, 0⟩ ⟨0, 0⟩ addr.segments
    if zeroes.len > 1 then
      showSegments (addr.segments.take zeroes.start) ++ "::"
        ++ showSegments (addr.segments.drop (zeroes.start + zeroes.len))
    else showSegments addr.segments

def display : IpAddr → String
  | .v4 addr => addr.display
  | .v6 addr => addr.display

/-! ## Parsing -/

/-- The value of a digit in a radix. -/
def toDigit (radix : Nat) (c : Char) : Option Nat :=
  let value :=
    if '0' ≤ c ∧ c ≤ '9' then some (c.toNat - '0'.toNat)
    else if 'a' ≤ c ∧ c ≤ 'z' then some (c.toNat - 'a'.toNat + 10)
    else if 'A' ≤ c ∧ c ≤ 'Z' then some (c.toNat - 'A'.toNat + 10)
    else none
  value.filter (· < radix)

/-- Reads all the digits there are: at most `maxDigits`, and a number below `bound`. -/
def readNumber (radix maxDigits : Nat) (allowZeroPrefix : Bool) (bound : Nat) (input : List Char) :
    Option (Nat × List Char) :=
  let digits := input.takeWhile fun c => (toDigit radix c).isSome
  let value := (digits.filterMap (toDigit radix)).foldl (fun n digit => n * radix + digit) 0
  if digits.length > maxDigits then none
  else if digits.length = 0 then none
  else if !allowZeroPrefix && input.head? == some '0' && digits.length > 1 then none
  else if value < bound then some (value, input.drop digits.length)
  else none

/-- Reads the separator first, in front of all but the first item. -/
def readSeparator {α : Type} (sep : Char) (index : Nat)
    (inner : List Char → Option (α × List Char)) (input : List Char) : Option (α × List Char) :=
  if index > 0 then
    match input with
    | c :: rest => if c = sep then inner rest else none
    | [] => none
  else inner input

def readIpv4Addr (input : List Char) : Option (Ipv4Addr × List Char) := do
  let octet := readNumber 10 3 false 256
  let (a, input) ← readSeparator '.' 0 octet input
  let (b, input) ← readSeparator '.' 1 octet input
  let (c, input) ← readSeparator '.' 2 octet input
  let (d, input) ← readSeparator '.' 3 octet input
  return (⟨.ofNat a, .ofNat b, .ofNat c, .ofNat d⟩, input)

/-- Reads up to `limit` groups, `remaining` of them still to come; an embedded IPv4
    address counts for two and is the last. -/
def readGroups (limit : Nat) : (remaining : Nat) → List Char → (List UInt16 × Bool) × List Char
  | 0, input => (([], false), input)
  | remaining + 1, input =>
    let i := limit - (remaining + 1)
    match (if remaining ≥ 1 then readSeparator ':' i readIpv4Addr input else none) with
    | some (v4, rest) => (([segment v4.a v4.b, segment v4.c v4.d], true), rest)
    | none =>
      match readSeparator ':' i (readNumber 16 4 true 65536) input with
      | some (group, rest) =>
        let ((groups, ipv4), rest) := readGroups limit remaining rest
        ((.ofNat group :: groups, ipv4), rest)
      | none => (([], false), input)

def Ipv6Addr.ofSegments (segments : List UInt16) : Option Ipv6Addr :=
  if h : segments.length = 8 then some ⟨segments, h⟩ else none

def readIpv6Addr (input : List Char) : Option (Ipv6Addr × List Char) :=
  let ((head, headIpv4), rest) := readGroups 8 8 input
  if head.length = 8 then (Ipv6Addr.ofSegments head).map (·, rest)
  else if headIpv4 then none
  else
    match rest with
    | ':' :: ':' :: rest =>
      -- `::` stands for at least one group of zeroes
      let limit := 8 - (head.length + 1)
      let ((tail, _), rest) := readGroups limit limit rest
      let zeroes := List.replicate (8 - head.length - tail.length) 0
      (Ipv6Addr.ofSegments (head ++ zeroes ++ tail)).map (·, rest)
    | _ => none

def readIpAddr (input : List Char) : Option (IpAddr × List Char) :=
  match readIpv4Addr input with
  | some (addr, rest) => some (.v4 addr, rest)
  | none => (readIpv6Addr input).map fun read => (.v6 read.1, read.2)

/-- The address a text is a spelling of. -/
def parse (text : List Char) : Option IpAddr :=
  match readIpAddr text with
  | some (addr, []) => some addr
  | _ => none

example : (parse "::ffff:10.0.0.5".toList).map toCanonical = parse "10.0.0.5".toList := by
  decide +kernel

example : (parse "2001:0DB8:0:0:0:0:0:1".toList).map display = some "2001:db8::1" := by
  decide +kernel

example : parse "10.0.0.05".toList = none := by decide +kernel

end Ip
