/-
  Inkentry.Lib.Whatwg

  A WHATWG URL parser without a base: its input without the control characters
  and spaces around it and without tabs and newlines, cut into the scheme, the
  host, the port and the path of a special URL.

  A host in brackets is an IPv6 address; any other is decoded, mapped to ASCII
  and, where it ends in a number, read as an IPv4 address.  For a name in plain
  ASCII the mapping is lower case; other names are left to a codec.  A special
  URL treats a backslash as a slash.  Credentials are passed over, and the
  schemes that are not special, or `file`, are left out.
-/

import Inkentry.Lib.IpText
import Inkentry.Lib.Utf8
import Mathlib.Algebra.GroupWithZero.Nat
import Mathlib.Data.List.DropRight

namespace Whatwg

open Ip

/-! ## IPv4 -/

/-- The radix that a part is written in, and its digits: hexadecimal behind `0x`, octal behind `0`. -/
def radixOf : List Char → ℕ × List Char
  | '0' :: c :: rest => if c = 'x' ∨ c = 'X' then (16, rest) else (8, c :: rest)
  | part => (10, part)

/-- The number that a part of an IPv4 address writes. -/
def ipv4Number (part : List Char) : Option ℕ :=
  let (radix, digits) := radixOf part
  if part = [] then none
  else if digits = [] then some 0
  else if digits.all (isDigit radix) then some (numberOf radix digits)
  else none

/-- The parts between the dots; an empty last one does not count. -/
def dottedParts (host : List Char) : List (List Char) :=
  let parts := host.splitOn '.'
  if parts.getLast? = some [] ∧ parts.length > 1 then parts.dropLast else parts

def endsInANumber (host : List Char) : Bool :=
  (dottedParts host).getLast?.any fun last =>
    last ≠ [] && last.all (isDigit 10) || (ipv4Number last).isSome

/-- The address of a number of 32 bits. -/
def ipv4OfNat (n : ℕ) : Ipv4Addr :=
  ⟨.ofNat (n / 256 ^ 3), .ofNat (n / 256 ^ 2), .ofNat (n / 256), .ofNat n⟩

/-- The numbers of an address: each but the last is a byte, and the last fills the rest. -/
def ipv4OfNumbers (numbers : List ℕ) : Option Ipv4Addr :=
  let last := numbers.getLast?.getD 0
  if numbers.dropLast.any (· > 255) then none
  else if last ≥ 256 ^ (5 - numbers.length) then none
  else some (ipv4OfNat (last + ((numbers.dropLast.zipIdx.map fun n => n.1 * 256 ^ (3 - n.2)).sum)))

def ipv4Parser (host : List Char) : Option Ipv4Addr :=
  if (dottedParts host).length > 4 then none
  else ((dottedParts host).mapM ipv4Number).bind ipv4OfNumbers

/-! ## IPv6 -/

/-- The numbers of an embedded IPv4 address, as many as are left, up to the end of the input. -/
def embeddedNumbers : ℕ → List Char → Option (List ℕ)
  | 0, [] => some []
  | 0, _ :: _ => none
  | left + 1, input =>
    let digits := input.takeWhile (isDigit 10)
    if digits = [] ∨ digits.length > 1 ∧ digits.head? = some '0' ∨ numberOf 10 digits > 255 then none
    else
      match input.drop digits.length with
      | [] => if left = 0 then some [numberOf 10 digits] else none
      | c :: rest =>
        if left = 0 ∨ c ≠ '.' then none
        else (embeddedNumbers left rest).map (numberOf 10 digits :: ·)

def embeddedPieces (input : List Char) : Option (List UInt16) :=
  match embeddedNumbers 4 input with
  | some [a, b, c, d] => some [.ofNat (a * 256 + b), .ofNat (c * 256 + d)]
  | _ => none

/-- The pieces that are still to come, where there is room for so many, and those behind a `::`. -/
def readPieces : (room : ℕ) → (compressed : Bool) → List Char →
    Option (List UInt16 × Option (List UInt16))
  | _, _, [] => some ([], none)
  | 0, _, _ :: _ => none
  | room + 1, compressed, c :: input =>
    if c = ':' then
      if compressed then none
      else (readPieces room true input).map fun pieces => ([], some pieces.1)
    else
      let digits := ((c :: input).takeWhile (isDigit 16)).take 4
      match (c :: input).drop digits.length with
      | [] => some ([.ofNat (numberOf 16 digits)], none)
      | d :: rest =>
        if d = '.' then
          if digits = [] ∨ room = 0 then none
          else (embeddedPieces (c :: input)).map fun pieces => (pieces, none)
        else if d = ':' ∧ rest ≠ [] then
          (readPieces room compressed rest).map fun pieces =>
            (.ofNat (numberOf 16 digits) :: pieces.1, pieces.2)
        else none

/-- The address of the pieces before and behind the zeroes. -/
def ipv6OfPieces : List UInt16 × Option (List UInt16) → Option Ipv6Addr
  | (before, none) => Ipv6Addr.ofSegments before
  | (before, some after) => Ipv6Addr.ofSegments
      (before ++ List.replicate (8 - before.length - after.length) 0 ++ after)

def ipv6Parser : List Char → Option Ipv6Addr
  | ':' :: ':' :: rest => (readPieces 7 true rest).bind fun pieces => ipv6OfPieces ([], some pieces.1)
  | ':' :: _ => none
  | input => (readPieces 8 false input).bind ipv6OfPieces

/-! ## Hosts -/

inductive Host where
  | domain (name : List Char)
  | ipv4 (addr : Ipv4Addr)
  | ipv6 (addr : Ipv6Addr)
  deriving DecidableEq

/-- What the parser takes from elsewhere: text with a percent sign, decoded, and ToASCII for the names
that are not plain. -/
structure Codec where
  decoded : List Char → List Char
  toAscii : List Char → Option (List Char)

variable (codec : Codec)

def percentDecoded (input : List Char) : List Char :=
  if input.contains '%' then codec.decoded input else input

/-- A name in ASCII without a label in Punycode. -/
def isPlain (name : List Char) : Bool :=
  name.all (fun c => c.toNat < 0x80)
    && (name.splitOn '.').all fun label => !"xn--".toList.isPrefixOf (label.map Char.toLower)

def domainToAscii (name : List Char) : Option (List Char) :=
  if isPlain name then some (name.map Char.toLower) else codec.toAscii name

def isForbidden (c : Char) : Bool :=
  c.toNat ≤ 0x1F || c.toNat = 0x7F || " #/:<>?@[\\]^|%".toList.contains c

def hostParser (input : List Char) : Option Host :=
  if input.head? = some '[' then
    if input.getLast? = some ']' then (ipv6Parser input.tail.dropLast).map .ipv6 else none
  else
    (domainToAscii codec (percentDecoded codec input)).bind fun name =>
      if name = [] ∨ name.any isForbidden then none
      else if endsInANumber name then (ipv4Parser name).map .ipv4
      else some (.domain name)

/-! ## URLs -/

def isControlOrSpace (c : Char) : Bool := c.toNat ≤ 0x20

def isTabOrNewline (c : Char) : Bool := c = '\t' || c = '\n' || c = '\r'

/-- The input as the parser reads it. -/
def cleaned (input : List Char) : List Char :=
  ((input.dropWhile isControlOrSpace).rdropWhile isControlOrSpace).filter (!isTabOrNewline ·)

def isSchemeChar (c : Char) : Bool := c.isAlphanum || c = '+' || c = '-' || c = '.'

/-- The scheme, and what follows its colon. -/
def schemeOf (input : List Char) : Option (List Char × List Char) :=
  if input.head?.any Char.isAlpha then
    match input.dropWhile isSchemeChar with
    | ':' :: rest => some ((input.takeWhile isSchemeChar).map Char.toLower, rest)
    | _ => none
  else none

/-- The special schemes but `file`, with their default ports. -/
def specialSchemes : List (List Char × ℕ) :=
  [("ftp".toList, 21), ("http".toList, 80), ("https".toList, 443), ("ws".toList, 80),
    ("wss".toList, 443)]

def isSlash (c : Char) : Bool := c = '/' || c = '\\'

/-- A character that does not end the authority. -/
def isAuthorityChar (c : Char) : Bool := !(isSlash c || c = '?' || c = '#')

/-- The host text, up to a colon that is not in brackets. -/
def hostText : (inBrackets : Bool) → List Char → List Char
  | _, [] => []
  | inBrackets, c :: rest =>
    if c = ':' ∧ inBrackets = false then []
    else c :: hostText (if c = '[' then true else if c = ']' then false else inBrackets) rest

/-- The port that follows the host: there may be none. -/
def portParser (default : ℕ) : List Char → Option (Option ℕ)
  | [] => some none
  | _ :: digits =>
    if digits.all (isDigit 10) = false ∨ numberOf 10 digits > 65535 then none
    else if digits = [] ∨ numberOf 10 digits = default then some none
    else some (some (numberOf 10 digits))

/-! ### Paths -/

def isSingleDot (segment : List Char) : Bool :=
  [".".toList, "%2e".toList].contains (segment.map Char.toLower)

def isDoubleDot (segment : List Char) : Bool :=
  ["..".toList, ".%2e".toList, "%2e.".toList, "%2e%2e".toList].contains (segment.map Char.toLower)

def hexDigit (n : ℕ) : Char := "0123456789ABCDEF".toList.getD n '0'

def percentEncodeByte (b : UInt8) : List Char := ['%', hexDigit (b.toNat / 16), hexDigit (b.toNat % 16)]

/-- Text with the characters of a set percent-encoded. -/
def percentEncode (inSet : Char → Bool) (text : List Char) : List Char :=
  text.flatMap fun c => if inSet c then (String.utf8EncodeChar c).flatMap percentEncodeByte else [c]

/-- The path percent-encode set. -/
def inPathSet (c : Char) : Bool := c.toNat ≤ 0x1F || c.toNat > 0x7E || " \"#<>?^`\x7b\x7d".toList.contains c

/-- A path with a segment that is not its last. -/
def pushSegment (path : List (List Char)) (segment : List Char) : List (List Char) :=
  if isDoubleDot segment then path.dropLast
  else if isSingleDot segment then path
  else path ++ [percentEncode inPathSet segment]

/-- A path with its last segment. -/
def pushLast (path : List (List Char)) (segment : List Char) : List (List Char) :=
  if isDoubleDot segment then path.dropLast ++ [[]]
  else if isSingleDot segment then path ++ [[]]
  else path ++ [percentEncode inPathSet segment]

/-- The path of the text up to a query or a fragment; its first slash may be missing. -/
def pathParser (text : List Char) : List (List Char) :=
  let segments := (if text.head?.any isSlash then text.tail else text).splitOnP isSlash
  pushLast (segments.dropLast.foldl pushSegment []) (segments.getLast?.getD [])

structure Url where
  scheme : List Char
  host : Host
  port : Option ℕ
  path : List (List Char)
  /-- What follows the path, its first mark included. -/
  queryAndFragment : List Char
  deriving DecidableEq

def isPathChar (c : Char) : Bool := !(c = '?' || c = '#')

/-- The URL behind the colon of a special scheme. -/
def parseSpecial (scheme : List Char) (default : ℕ) (input : List Char) : Option Url :=
  let rest := input.dropWhile isSlash
  let hostPort := (rest.takeWhile isAuthorityChar).rtakeWhile (· ≠ '@')
  let text := hostText false hostPort
  let tail := rest.dropWhile isAuthorityChar
  (hostParser codec text).bind fun host =>
    (portParser default (hostPort.drop text.length)).map fun port =>
      { scheme := scheme
        host := host
        port := port
        path := pathParser (tail.takeWhile isPathChar)
        queryAndFragment := tail.dropWhile isPathChar }

def parse (input : List Char) : Option Url :=
  (schemeOf (cleaned input)).bind fun (scheme, rest) =>
    (specialSchemes.find? fun s => s.1 = scheme).bind fun s => parseSpecial codec scheme s.2 rest

end Whatwg
