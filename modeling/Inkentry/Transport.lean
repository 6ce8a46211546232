/-
  Inkentry.Transport

  The transport check: `https` to any host, plain `http` to a loopback host
  only.  The host is cut out of the URL by hand; the law of the check compares
  it with the host that a WHATWG parser finds (`transportLaw`).
-/

import Mathlib.Data.Bool.AllAny
import Inkentry.Lib.Thinning
import Inkentry.Lib.WhatwgText

namespace Inkentry
namespace Transport

open Ip Whatwg

/-! ## The check -/

/-- The host of a URL: scheme, credentials, port and brackets removed. -/
def urlHost (url : List Char) : Option (List Char) :=
  let rest := ((url.dropPrefix? "http://".toList).or (url.dropPrefix? "https://".toList)).getD url
  let authority := rest.takeWhile fun c => !"/?#\\".toList.contains c
  let hostPort := authority.rtakeWhile (· ≠ '@')
  match hostPort with
  | '[' :: afterBracket => some (afterBracket.takeWhile (· ≠ ']'))
  | _ =>
    if hostPort.count ':' > 1 then some hostPort
    else some (hostPort.takeWhile (· ≠ ':'))

def parseIpv4 (text : List Char) : Option Ipv4Addr :=
  match readIpv4Addr text with
  | some (addr, []) => some addr
  | _ => none

def parseIpv6 (text : List Char) : Option Ipv6Addr :=
  match readIpv6Addr text with
  | some (addr, []) => some addr
  | _ => none

/-- `127.0.0.0/8` -/
def ipv4IsLoopback (addr : Ipv4Addr) : Bool := addr.a = 127

/-- `::1` -/
def ipv6IsLoopback (addr : Ipv6Addr) : Bool := addr.segments = [0, 0, 0, 0, 0, 0, 0, 1]

def hostIsLoopback (host : List Char) : Bool :=
  if host = "localhost".toList then true
  else
    match parseIpv4 host with
    | some v4 => ipv4IsLoopback v4
    | none => (parseIpv6 host).any ipv6IsLoopback

def isLoopbackUrl (url : List Char) : Bool := (urlHost url).any hostIsLoopback

/-- `debug` is the quoted form of a text. -/
def validateTransportUrl (debug : List Char → String) (url : List Char) : Except String Unit :=
  if "https://".toList.isPrefixOf url then .ok ()
  else if "http://".toList.isPrefixOf url then
    if isLoopbackUrl url then .ok ()
    else .error ("invalid server URL " ++ debug url ++ ": plaintext http:// is only allowed to a loopback "
      ++ "address (127.0.0.1/::1/localhost); use https:// for any other host")
  else .error ("invalid server URL " ++ debug url ++ ": expected an http:// or https:// URL")

/-! ## The law -/

/-- A host that is `localhost` or a loopback address. -/
def IsLocal : Host → Prop
  | .domain name => name = "localhost".toList
  | .ipv4 addr => ipv4IsLoopback addr = true
  | .ipv6 addr => ipv6IsLoopback addr = true

/-- The canonical spellings of these hosts. -/
inductive CanonicalLocal : List Char → Prop
  | localhost : CanonicalLocal "localhost".toList
  | ipv4 (addr : Ipv4Addr) (h : ipv4IsLoopback addr = true) : CanonicalLocal addr.display.toList
  | ipv6 : CanonicalLocal "[::1]".toList

/-- Credentials in front of a host: none, or anything that does not end the authority and an `@`. -/
def IsUserinfo (text : List Char) : Prop :=
  text = [] ∨ ∃ credentials, text = credentials ++ ['@'] ∧ ∀ c ∈ credentials, isAuthorityChar c = true

/-- A port behind a host. -/
def IsPort (text : List Char) : Prop := text = [] ∨ ∃ digits, text = ':' :: digits ∧ ∀ c ∈ digits, isDigit 10 c = true

/-- What follows the authority. -/
def IsTail (text : List Char) : Prop := ∀ c ∈ text.head?, isAuthorityChar c = false

/-- The law of the check: a URL that it accepts and that has the scheme `http` has a local host, and
an `http` URL with such a host in canonical spelling is accepted. -/
def TransportLaw (codec : Codec) (debug : List Char → String) : Prop :=
  (∀ url u, validateTransportUrl debug url = .ok () → parse codec url = some u →
      u.scheme = "http".toList → IsLocal u.host)
    ∧ ∀ userinfo host port tail, IsUserinfo userinfo → CanonicalLocal host → IsPort port → IsTail tail →
      validateTransportUrl debug ("http://".toList ++ userinfo ++ host ++ port ++ tail) = .ok ()

/-! ## The hosts that are accepted -/

section Hosts

variable {host text : List Char} {c : Char}

theorem parseIpv4_eq_some_iff {addr : Ipv4Addr} :
    parseIpv4 text = some addr ↔ readIpv4Addr text = some (addr, []) := by
  rw [parseIpv4]
  split
  case h_1 _ heq => simp [heq]
  case h_2 hnone => exact ⟨nofun, fun h => absurd h (hnone addr)⟩

theorem parseIpv6_eq_some_iff {addr : Ipv6Addr} :
    parseIpv6 text = some addr ↔ readIpv6Addr text = some (addr, []) := by
  rw [parseIpv6]
  split
  case h_1 _ heq => simp [heq]
  case h_2 hnone => exact ⟨nofun, fun h => absurd h (hnone addr)⟩

theorem hostIsLoopback_iff : hostIsLoopback host = true ↔ host = "localhost".toList
    ∨ (∃ addr, readIpv4Addr host = some (addr, []) ∧ ipv4IsLoopback addr = true)
    ∨ ∃ addr, readIpv6Addr host = some (addr, []) ∧ ipv6IsLoopback addr = true := by
  rw [hostIsLoopback]
  by_cases hlocal : host = "localhost".toList
  · simp [hlocal]
  · rw [if_neg hlocal]
    split
    case h_1 v4 hv4 =>
      rw [parseIpv4_eq_some_iff] at hv4
      constructor
      · exact fun h => .inr (.inl ⟨v4, hv4, h⟩)
      · rintro (h | ⟨addr, haddr, h⟩ | ⟨addr, haddr, -⟩)
        · exact absurd h hlocal
        · rw [hv4, Option.some.injEq, Prod.mk.injEq] at haddr
          exact haddr.1 ▸ h
        · exact absurd hv4 (readIpv4Addr_ne_of_colon (colon_mem_of_readIpv6Addr haddr) v4)
    case h_2 hnone =>
      rw [Option.any_eq_true]
      simp only [parseIpv6_eq_some_iff]
      constructor
      · rintro ⟨addr, haddr, h⟩
        exact .inr (.inr ⟨addr, haddr, h⟩)
      · rintro (h | ⟨addr, haddr, -⟩ | ⟨addr, haddr, h⟩)
        · exact absurd h hlocal
        · rw [parseIpv4_eq_some_iff.mpr haddr] at hnone
          cases hnone
        · exact ⟨addr, haddr, h⟩

theorem groupChar (h : IsGroupChar c) : isControlOrSpace c = false ∧ c ≠ '[' ∧ c ≠ ']' := by
  rcases h with rfl | rfl | h
  · decide
  · decide
  · have hsmall : c.toNat < 123 := by
      obtain ⟨d, hd⟩ := Option.isSome_iff_exists.mp h
      obtain ⟨hvalue, -⟩ := Option.filter_eq_some_iff.mp hd
      split at hvalue
      case isTrue hrange =>
        have hle : c.toNat ≤ 57 := hrange.2
        omega
      case isFalse =>
        split at hvalue
        case isTrue hrange =>
          have hle : c.toNat ≤ 122 := hrange.2
          omega
        case isFalse =>
          split at hvalue
          case isTrue hrange =>
            have hle : c.toNat ≤ 90 := hrange.2
            omega
          case isFalse => cases hvalue
    have hall : ∀ n < 123, isDigit 16 (Char.ofNat n) = true → isControlOrSpace (Char.ofNat n) = false
        ∧ Char.ofNat n ≠ '[' ∧ Char.ofNat n ≠ ']' := by decide +kernel
    have := hall c.toNat hsmall
    rw [Char.ofNat_toNat] at this
    exact this h

/-- An accepted host is written without control characters, spaces and brackets. -/
theorem accepted_char (h : hostIsLoopback host = true) (hc : c ∈ host) :
    isControlOrSpace c = false ∧ c ≠ '[' ∧ c ≠ ']' := by
  rcases hostIsLoopback_iff.mp h with rfl | ⟨addr, haddr, -⟩ | ⟨addr, haddr, -⟩
  · have hall : ∀ c ∈ "localhost".toList, isControlOrSpace c = false ∧ c ≠ '[' ∧ c ≠ ']' :=
      List.all_iff_forall_prop.mp (by decide)
    exact hall c hc
  · obtain ⟨s, t, u, v, rfl, hs, ht, hu, hv, -, -⟩ := readIpv4Addr_eq_some_iff.mp haddr
    rw [List.append_nil] at hc
    exact groupChar (.inr ((mem_quadText hs ht hu hv hc).imp_right isDigit_of_decimal))
  · exact groupChar (isGroupChar_of_readIpv6Addr haddr hc)

theorem accepted_ne_nil (h : hostIsLoopback host = true) : host ≠ [] := by
  rintro rfl
  exact absurd h (by decide)

theorem isLocal_of_noColon {codec : Codec} {u : Host} (h : hostIsLoopback host = true)
    (hcolon : ':' ∉ host) (hparse : hostParser codec host = some u) : IsLocal u := by
  rcases hostIsLoopback_iff.mp h with rfl | ⟨addr, haddr, hloop⟩ | ⟨addr, haddr, -⟩
  · have hlocal : hostParser codec "localhost".toList = some (.domain "localhost".toList) := by
      rw [hostParser_of_plain codec (by decide) (by decide) (by decide) (by decide)
        (List.all_iff_forall_prop.mp (by decide)) (List.all_iff_forall_prop.mp (by decide))]
      rfl
    rw [hlocal] at hparse
    obtain rfl := Option.some.inj hparse
    rfl
  · rw [hostParser_of_readIpv4Addr codec haddr] at hparse
    obtain rfl := Option.some.inj hparse
    exact hloop
  · exact absurd (colon_mem_of_readIpv6Addr haddr) hcolon

/-- In brackets, the address that is accepted is the one that is parsed. -/
theorem isLocal_of_ipv6Parser {addr : Ipv6Addr} (h : hostIsLoopback host = true)
    (hparse : ipv6Parser host = some addr) : ipv6IsLoopback addr = true := by
  have hread := readIpv6Addr_of_ipv6Parser hparse
  have hcolon := colon_mem_of_readIpv6Addr hread
  rcases hostIsLoopback_iff.mp h with rfl | ⟨addr', haddr, -⟩ | ⟨addr', haddr, hloop⟩
  · exact absurd hcolon (by decide)
  · exact absurd haddr (readIpv4Addr_ne_of_colon hcolon addr')
  · rw [hread, Option.some.injEq, Prod.mk.injEq] at haddr
    exact haddr.1 ▸ hloop

end Hosts

/-! ## The two ways to find the host -/

section Split

variable {codec : Codec} {p p' rest : List Char}

/-- The host in the part of the authority behind the credentials. -/
def hostOf (hostPort : List Char) : List Char :=
  match hostPort with
  | '[' :: afterBracket => afterBracket.takeWhile (· ≠ ']')
  | _ => if hostPort.count ':' > 1 then hostPort else hostPort.takeWhile (· ≠ ':')

theorem some_hostOf (hostPort : List Char) :
    (match hostPort with
      | '[' :: afterBracket => some (afterBracket.takeWhile (· ≠ ']'))
      | _ => if hostPort.count ':' > 1 then some hostPort else some (hostPort.takeWhile (· ≠ ':')))
      = some (hostOf hostPort) := by
  rw [hostOf.eq_def]
  split
  case h_1 => rfl
  case h_2 hbracket => exact (apply_ite some _ _ _).symm

theorem mem_of_mem_hostOf {c : Char} (h : c ∈ hostOf p) : c ∈ p := by
  rw [hostOf.eq_def] at h
  split at h
  case h_1 => exact List.mem_cons_of_mem _ ((List.takeWhile_prefix _).subset h)
  case h_2 =>
    split at h
    · exact h
    · exact (List.takeWhile_prefix _).subset h

theorem urlHost_http (rest : List Char) : urlHost ("http://".toList ++ rest)
    = some (hostOf ((rest.takeWhile isAuthorityChar).rtakeWhile (· ≠ '@'))) := by
  have hprefix : ("http://".toList ++ rest).dropPrefix? "http://".toList = some rest :=
    List.dropPrefix?_eq_some_iff.mpr ⟨_, rfl, BEq.rfl⟩
  have hends : (fun c => !"/?#\\".toList.contains c) = isAuthorityChar := by
    funext c
    simp [isAuthorityChar, isSlash, Bool.and_comm, Bool.and_left_comm]
  rw [urlHost, hprefix, hends]
  exact some_hostOf _

theorem takeWhile_of_prefix {d : Char} {inner text : List Char} (hd : d ∉ inner)
    (h : inner ++ [d] <+: text) : text.takeWhile (· ≠ d) = inner := by
  obtain ⟨more, rfl⟩ := h
  have hinner : ∀ c ∈ inner, decide (c ≠ d) = true := fun c hc =>
    decide_eq_true fun heq => hd (heq ▸ hc)
  rw [List.append_assoc, List.takeWhile_append_of_pos hinner, List.singleton_append,
    List.takeWhile_cons, if_neg (by simp), List.append_nil]

/-- What the check takes off up to a mark is what the parser takes off, where it has no control
character. -/
theorem takeWhile_eq_of_thins {d : Char} (hd : isControlOrSpace d = false)
    (h : Thins isControlOrSpace p p') (hhost : hostIsLoopback (p.takeWhile (· ≠ d)) = true) :
    p'.takeWhile (· ≠ d) = p.takeWhile (· ≠ d) := by
  refine (h.takeWhile fun c hc => decide_eq_true ?_).eq_of_none fun c hc => (accepted_char hhost hc).1
  rintro rfl
  exact absurd hc (by rw [hd]; decide)

/-- A host that is accepted, in a text that the parser reads thinned out, is the parsed one. -/
theorem isLocal_of_thins (hthins : Thins isControlOrSpace p p') (hhost : hostIsLoopback (hostOf p) = true)
    {h : Host} (hparse : hostParser codec (hostText false p') = some h)
    (hport : (portParser 80 (p'.drop (hostText false p').length)).isSome = true) : IsLocal h := by
  rw [hostOf.eq_def] at hhost
  split at hhost
  case h_1 after =>
    -- in brackets: the text up to the closing bracket
    obtain ⟨after', rfl, hafter⟩ := hthins.exists_of_cons (by decide)
    have hsame := takeWhile_eq_of_thins (by decide) hafter hhost
    have htext : hostText false ('[' :: after') = '[' :: hostText true after' := rfl
    rw [htext, hostParser, if_pos List.head?_cons] at hparse
    split at hparse
    case isFalse => cases hparse
    case isTrue hlast =>
      obtain ⟨addr, haddr, rfl⟩ := Option.map_eq_some_iff.mp hparse
      rw [List.tail_cons] at haddr
      have hclosed : (hostText true after').dropLast ++ [']'] = hostText true after' := by
        refine List.dropLast_append_getLast? _ ?_
        cases htrue : hostText true after' with
        | nil =>
          rw [htrue] at hlast
          cases hlast
        | cons c more =>
          rwa [htrue, List.getLast?_cons_cons] at hlast
      have hbracket : ']' ∉ (hostText true after').dropLast := fun hmem =>
        (groupChar (isGroupChar_of_readIpv6Addr (readIpv6Addr_of_ipv6Parser haddr) hmem)).2.2 rfl
      have hinner := takeWhile_of_prefix hbracket (hclosed ▸ hostText_prefix true after')
      rw [hinner] at hsame
      exact isLocal_of_ipv6Parser (hsame ▸ hhost) haddr
  case h_2 hbracket =>
    split at hhost
    case isTrue hcount =>
      -- a bare address is no host: a second colon stands in its port
      obtain rfl := hthins.eq_of_none fun c hc => (accepted_char hhost hc).1
      have hnone : '[' ∉ p' := fun hmem => (accepted_char hhost hmem).2.1 rfl
      rw [hostText_of_noBracket hnone, drop_length_takeWhile] at hport
      have hsplit := List.takeWhile_append_dropWhile (p := fun c => decide (c ≠ ':')) (l := p')
      have hfront : (p'.takeWhile (· ≠ ':')).count ':' = 0 :=
        List.count_eq_zero.mpr fun hmem => by simpa using List.mem_takeWhile_imp hmem
      rw [← hsplit, List.count_append, hfront, Nat.zero_add] at hcount
      cases hback : p'.dropWhile (· ≠ ':') with
      | nil =>
        rw [hback] at hcount
        exact absurd hcount (by simp)
      | cons c digits =>
        rw [hback] at hcount hport
        have hcolon : ':' ∈ digits := by
          refine List.count_pos_iff.mp ?_
          have hle := List.count_le_count_cons (a := ':') (b := c) (l := digits)
          rw [List.count_cons] at hcount
          split at hcount <;> omega
        have hall : digits.all (isDigit 10) = false := by
          rw [List.all_eq_false]
          exact ⟨':', hcolon, by decide⟩
        rw [portParser, if_pos (.inl hall)] at hport
        cases hport
    case isFalse =>
      have hsame := takeWhile_eq_of_thins (by decide) hthins hhost
      have hcolon : ':' ∉ p'.takeWhile (· ≠ ':') := fun hmem => by
        simpa using List.mem_takeWhile_imp hmem
      have hnone : '[' ∉ p'.takeWhile (· ≠ ':') := fun hmem =>
        (accepted_char hhost (hsame ▸ hmem)).2.1 rfl
      have htext : hostText false p' = p'.takeWhile (· ≠ ':') := by
        have hsplit := List.takeWhile_append_dropWhile (p := fun c => decide (c ≠ ':')) (l := p')
        cases hback : p'.dropWhile (· ≠ ':') with
        | nil =>
          rw [hback, List.append_nil] at hsplit
          rw [hsplit] at hnone ⊢
          rw [hostText_of_noBracket hnone, hsplit]
        | cons c digits =>
          have hc : c = ':' := by
            have := List.head?_dropWhile_not (fun c => decide (c ≠ ':')) p'
            rw [hback] at this
            simpa using this
          rw [hback, hc] at hsplit
          conv_lhs => rw [← hsplit]
          exact hostText_append hnone hcolon
      rw [htext, hsame] at hparse
      exact isLocal_of_noColon hhost (hsame ▸ hcolon) hparse

end Split

/-! ## The law holds -/

section Law

variable {codec : Codec} {debug : List Char → String} {rest : List Char}

theorem isLocal_of_parse {u : Url} (h : isLoopbackUrl ("http://".toList ++ rest) = true)
    (hparse : parse codec ("http://".toList ++ rest) = some u) : IsLocal u.host := by
  rw [isLoopbackUrl, urlHost_http, Option.any_some] at h
  set p := (rest.takeWhile isAuthorityChar).rtakeWhile (· ≠ '@') with hp
  have hend : ∀ c, isControlOrSpace c = true → isAuthorityChar c = true := by
    intro c hc
    by_contra hnot
    simp only [isAuthorityChar, isSlash, Bool.not_eq_true, Bool.not_eq_false', Bool.or_eq_true,
      decide_eq_true_eq] at hnot
    rcases hnot with ((rfl | rfl) | rfl) | rfl <;> exact absurd hc (by decide)
  have hthins := ((thins_cleanedBack rest).takeWhile hend).rtakeWhile (q := (· ≠ '@'))
    fun c hc => decide_eq_true fun heq => absurd hc (by rw [heq]; decide)
  -- a character of the host is left, so the authority is not empty
  have hne : (cleanedBack rest).takeWhile isAuthorityChar ≠ [] := by
    intro hnil
    rw [hnil, ← hp] at hthins
    obtain ⟨c, more, hhost⟩ := List.exists_cons_of_ne_nil (accepted_ne_nil h)
    have hmem : c ∈ hostOf p := hhost ▸ List.mem_cons_self
    exact absurd (hthins.mem (mem_of_mem_hostOf hmem) (accepted_char h hmem).1) (by simp [List.rtakeWhile])
  rw [parse_http, parseSpecial_of_authority codec _ _ hne] at hparse
  obtain ⟨host, hhost, hurl⟩ := Option.bind_eq_some_iff.mp hparse
  obtain ⟨port, hport, rfl⟩ := Option.map_eq_some_iff.mp hurl
  exact isLocal_of_thins hthins h hhost (by rw [hport]; rfl)

theorem isPrefixOf_iff_exists {front url : List Char} :
    front.isPrefixOf url = true ↔ ∃ rest, url = front ++ rest := by
  rw [List.isPrefixOf_iff_prefix]
  exact ⟨fun ⟨rest, h⟩ => ⟨rest, h.symm⟩, fun ⟨rest, h⟩ => ⟨rest, h.symm⟩⟩

theorem validateTransportUrl_eq_ok {url : List Char} (h : validateTransportUrl debug url = .ok ()) :
    (∃ rest, url = "https://".toList ++ rest)
      ∨ ∃ rest, url = "http://".toList ++ rest ∧ isLoopbackUrl url = true := by
  rw [validateTransportUrl] at h
  split at h
  case isTrue hhttps => exact .inl (isPrefixOf_iff_exists.mp hhttps)
  case isFalse =>
  split at h
  case isFalse => cases h
  case isTrue hhttp =>
  split at h
  case isFalse => cases h
  case isTrue hloop =>
    obtain ⟨rest, hrest⟩ := isPrefixOf_iff_exists.mp hhttp
    exact .inr ⟨rest, hrest, hloop⟩

theorem scheme_of_https {u : Url} (h : parse codec ("https://".toList ++ rest) = some u) :
    u.scheme = "https".toList := by
  rw [parse_https, parseSpecial] at h
  obtain ⟨host, -, hurl⟩ := Option.bind_eq_some_iff.mp h
  obtain ⟨port, -, rfl⟩ := Option.map_eq_some_iff.mp hurl
  rfl

theorem allowed_char {c : Char} (h : isForbidden c = false) :
    isAuthorityChar c = true ∧ c ≠ '@' ∧ c ≠ ':' ∧ c ≠ '[' := by
  have hne : ∀ d, isForbidden d = true → c ≠ d := fun d hd heq => by
    rw [heq, hd] at h
    cases h
  refine ⟨?_, hne _ (by decide), hne _ (by decide), hne _ (by decide)⟩
  simp [isAuthorityChar, isSlash, hne '/' (by decide), hne '\\' (by decide), hne '?' (by decide),
    hne '#' (by decide)]

theorem decimal_char {c : Char} (h : isDigit 10 c = true) :
    isAuthorityChar c = true ∧ c ≠ '@' ∧ c ≠ ':' ∧ c ≠ '[' :=
  allowed_char (decimal_digit h).2.1

theorem port_char {port : List Char} (hport : IsPort port) {c : Char} (hc : c ∈ port) :
    isAuthorityChar c = true ∧ c ≠ '@' := by
  rcases hport with rfl | ⟨digits, rfl, hdigits⟩
  · cases hc
  · rcases List.mem_cons.mp hc with rfl | hc
    · decide
    · have := decimal_char (hdigits c hc)
      exact ⟨this.1, this.2.1⟩

/-- The part of the authority that is cut out of a URL in its canonical form. -/
theorem urlHost_of_parts {userinfo host port tail : List Char} (huserinfo : IsUserinfo userinfo)
    (hhost : ∀ c ∈ host, isAuthorityChar c = true ∧ c ≠ '@') (hport : IsPort port) (htail : IsTail tail) :
    urlHost ("http://".toList ++ (userinfo ++ host ++ port ++ tail)) = some (hostOf (host ++ port)) := by
  have hback : ∀ c ∈ host ++ port, isAuthorityChar c = true ∧ c ≠ '@' := fun c hc =>
    (List.mem_append.mp hc).elim (hhost c) (port_char hport)
  have hfront : ∀ c ∈ userinfo ++ (host ++ port), isAuthorityChar c = true := by
    intro c hc
    refine (List.mem_append.mp hc).elim (fun hc => ?_) fun hc => (hback c hc).1
    rcases huserinfo with rfl | ⟨credentials, rfl, hcredentials⟩
    · cases hc
    · refine (List.mem_append.mp hc).elim (hcredentials c) fun hc => ?_
      obtain rfl := List.mem_singleton.mp hc
      decide
  have hauthority : (userinfo ++ host ++ port ++ tail).takeWhile isAuthorityChar
      = userinfo ++ (host ++ port) := by
    rw [List.append_assoc userinfo, List.takeWhile_append_of_pos hfront]
    cases tail with
    | nil => simp
    | cons c tail =>
      rw [List.takeWhile_cons, htail c rfl, if_neg (by decide), List.append_nil]
  have hhostPort : (userinfo ++ (host ++ port)).rtakeWhile (· ≠ '@') = host ++ port := by
    rw [List.rtakeWhile, List.reverse_append, List.takeWhile_append_of_pos]
    · rcases huserinfo with rfl | ⟨credentials, rfl, -⟩
      · simp
      · simp
    · intro c hc
      exact decide_eq_true (hback c (List.mem_reverse.mp hc)).2
  rw [urlHost_http, hauthority, hhostPort]

theorem hostOf_append_port {host port : List Char} (hhost : ∀ c ∈ host, c ≠ ':' ∧ c ≠ '[')
    (hport : IsPort port) (hne : host ≠ []) : hostOf (host ++ port) = host := by
  have hcolon : host.count ':' = 0 := List.count_eq_zero.mpr fun hmem => (hhost _ hmem).1 rfl
  have hfront : ∀ c ∈ host, decide (c ≠ ':') = true := fun c hc => decide_eq_true (hhost c hc).1
  have htake : (host ++ port).takeWhile (· ≠ ':') = host := by
    rw [List.takeWhile_append_of_pos hfront]
    rcases hport with rfl | ⟨digits, rfl, -⟩ <;> simp
  rw [hostOf.eq_def]
  split
  case h_1 after heq =>
    obtain ⟨c, more, rfl⟩ := List.exists_cons_of_ne_nil hne
    exact absurd (List.cons.inj heq).1 (hhost c List.mem_cons_self).2
  case h_2 =>
    rw [if_neg, htake]
    rw [List.count_append, hcolon]
    rcases hport with rfl | ⟨digits, rfl, hdigits⟩
    · simp
    · have hnone : digits.count ':' = 0 :=
        List.count_eq_zero.mpr fun hmem => (decimal_char (hdigits _ hmem)).2.2.1 rfl
      rw [List.count_cons_self, hnone]
      decide

/-- A canonical spelling is accepted, with credentials and a port around it. -/
theorem isLoopbackUrl_of_canonical {userinfo host port tail : List Char} (huserinfo : IsUserinfo userinfo)
    (hhost : CanonicalLocal host) (hport : IsPort port) (htail : IsTail tail) :
    isLoopbackUrl ("http://".toList ++ (userinfo ++ host ++ port ++ tail)) = true := by
  have hplain : ∀ {host : List Char}, host ≠ [] → (∀ c ∈ host, isForbidden c = false) →
      hostIsLoopback host = true →
      isLoopbackUrl ("http://".toList ++ (userinfo ++ host ++ port ++ tail)) = true := by
    intro host hne hchars hloop
    have hchar := fun c hc => allowed_char (hchars c hc)
    rw [isLoopbackUrl, urlHost_of_parts huserinfo (fun c hc => ⟨(hchar c hc).1, (hchar c hc).2.1⟩) hport
      htail, hostOf_append_port (fun c hc => (hchar c hc).2.2) hport hne]
    exact hloop
  cases hhost with
  | localhost => exact hplain (by decide) (List.all_iff_forall_prop.mp (by decide)) (by decide)
  | ipv4 addr haddr =>
    have hread := readIpv4Addr_display addr
    obtain ⟨s, t, u, v, htext, hs, ht, hu, hv, -, -⟩ := readIpv4Addr_eq_some_iff.mp hread
    rw [List.append_nil] at htext
    refine hplain (by rw [htext]; simp [quadText]) (fun c hc => ?_)
      (hostIsLoopback_iff.mpr (.inr (.inl ⟨addr, hread, haddr⟩)))
    rw [htext] at hc
    rcases mem_quadText hs ht hu hv hc with rfl | hdigit
    · decide
    · exact (decimal_digit hdigit).2.1
  | ipv6 =>
    rw [isLoopbackUrl, urlHost_of_parts huserinfo (List.all_iff_forall_prop.mp (by decide)) hport htail]
    have hhost : hostOf ("[::1]".toList ++ port) = "::1".toList := rfl
    rw [hhost]
    decide +kernel

end Law

theorem transportLaw (codec : Codec) (debug : List Char → String) : TransportLaw codec debug := by
  constructor
  · intro url u haccepted hparse hscheme
    rcases validateTransportUrl_eq_ok haccepted with ⟨rest, rfl⟩ | ⟨rest, rfl, hloop⟩
    · rw [scheme_of_https hparse] at hscheme
      exact absurd hscheme (by decide)
    · exact isLocal_of_parse hloop hparse
  · intro userinfo host port tail huserinfo hhost hport htail
    have hloop := isLoopbackUrl_of_canonical huserinfo hhost hport htail
    have hurl : "http://".toList ++ userinfo ++ host ++ port ++ tail
        = "http://".toList ++ (userinfo ++ host ++ port ++ tail) := by simp only [List.append_assoc]
    rw [hurl, validateTransportUrl, if_neg, if_pos (isPrefixOf_iff_exists.mpr ⟨_, rfl⟩), if_pos hloop]
    intro h
    obtain ⟨rest, hrest⟩ := isPrefixOf_iff_exists.mp h
    cases hrest

end Transport
end Inkentry
