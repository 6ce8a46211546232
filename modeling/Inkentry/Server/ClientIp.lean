/-
  Inkentry.Server.ClientIp

  The address a request is rate-limited under.  The peer of the connection is
  the client, unless the peer is a trusted proxy and `X-Forwarded-For` names an
  address.

  A request reaches the server through a proxy that adds the address it saw to
  what the client sent under that header (`Proxy.forward`).  What the proxy
  adds is the last entry of the last line; the key is read off the last entry of
  the first line.
-/

import Inkentry.Lib.IpAddr

namespace Inkentry
namespace Server

open Ip

/-! ## Headers -/

/-- A header value: any bytes but control characters, the tab excepted. -/
structure HeaderValue where
  bytes : List UInt8
  valid : ∀ b ∈ bytes, b ≥ 32 ∧ b ≠ 127 ∨ b = 9
  deriving DecidableEq

def isVisibleAscii (b : UInt8) : Bool := b ≥ 32 && b < 127 || b == 9

def HeaderValue.isVisible (v : HeaderValue) : Bool := v.bytes.all isVisibleAscii

/-- The bytes as characters. -/
def HeaderValue.chars (v : HeaderValue) : List Char := v.bytes.map fun b => Char.ofNat b.toNat

/-- The value as text, when all of it is visible ASCII. -/
def HeaderValue.toStr (v : HeaderValue) : Option (List Char) :=
  if v.isVisible then some v.chars else none

/-- The lines of a request's header, in order for each name. -/
structure HeaderMap where
  lines : String → List HeaderValue

/-- The first line under a name. -/
def HeaderMap.get (headers : HeaderMap) (name : String) : Option HeaderValue :=
  (headers.lines name).head?

/-! ## The key -/

/-- The peers whose `X-Forwarded-For` is believed. -/
structure TrustedProxies where
  addrs : List IpAddr

def TrustedProxies.new (addrs : List IpAddr) : TrustedProxies := ⟨addrs.map toCanonical⟩

def TrustedProxies.trusts (trusted : TrustedProxies) (peer : IpAddr) : Bool :=
  toCanonical peer ∈ trusted.addrs

/-- A text without the white space around it; a visible line has blanks and tabs. -/
def trim (text : List Char) : List Char :=
  ((text.dropWhile Char.isWhitespace).reverse.dropWhile Char.isWhitespace).reverse

/-- The address a line ends in. -/
def HeaderValue.trailingIp (v : HeaderValue) : Option IpAddr := do
  let text ← v.toStr
  let last ← (text.splitOn ',').getLast?
  parse (trim last)

def xForwardedFor : String := "x-forwarded-for"

def forwardedClientIp (headers : HeaderMap) : Option IpAddr :=
  (headers.get xForwardedFor).bind HeaderValue.trailingIp

def clientIpKey (headers : HeaderMap) (peer : Option IpAddr) (trusted : TrustedProxies) : String :=
  match (peer.filter trusted.trusts).bind fun _ => forwardedClientIp headers with
  | some forwarded => display (toCanonical forwarded)
  | none =>
    match peer with
    | some ip => display (toCanonical ip)
    | none => "unknown"

/-! ## The proxy in front -/

/-- How a proxy adds the address it saw to what the client sent. -/
inductive Proxy where
  | appends
  | addsLine
  | overwrites
  deriving DecidableEq, Repr

/-- The text of an address a proxy saw. -/
structure Observed where
  text : HeaderValue
  addr : IpAddr
  visible : text.isVisible = true
  noComma : 44 ∉ text.bytes
  names : text.trailingIp = some addr

/-- A line with an entry appended to it. -/
def HeaderValue.append (v entry : HeaderValue) : HeaderValue where
  bytes := v.bytes ++ 44 :: 32 :: entry.bytes
  valid := by
    intro b hb
    rcases List.mem_append.mp hb with hmem | hmem
    · exact v.valid b hmem
    · rcases List.mem_cons.mp hmem with rfl | hmem
      · exact .inl (by decide)
      · rcases List.mem_cons.mp hmem with rfl | hmem
        · exact .inl (by decide)
        · exact entry.valid b hmem

/-- The lines the server receives for the lines a client sent. -/
def Proxy.forward (proxy : Proxy) (seen : Observed) (client : List HeaderValue) :
    List HeaderValue :=
  match proxy with
  | .appends =>
    match client.getLast? with
    | some last => client.dropLast ++ [last.append seen.text]
    | none => [seen.text]
  | .addsLine => client ++ [seen.text]
  | .overwrites => [seen.text]

/-- A way to the server: who connects to it, whom it trusts, what the proxy in front
    does and saw, and the rest of the request. -/
structure Route where
  peer : Option IpAddr
  trusted : TrustedProxies
  proxy : Proxy
  seen : Observed
  otherLines : String → List HeaderValue

/-- The header of a request that a client sent with the given forwarding lines. -/
def Route.headers (r : Route) (client : List HeaderValue) : HeaderMap :=
  ⟨fun name => if name = xForwardedFor then r.proxy.forward r.seen client else r.otherLines name⟩

def Route.key (r : Route) (client : List HeaderValue) : String :=
  clientIpKey (r.headers client) r.peer r.trusted

def Route.isTrusted (r : Route) : Bool := r.peer.any r.trusted.trusts

/-- The key of what was observed: the address a trusted proxy saw, else the peer's. -/
def Route.fact (r : Route) : String :=
  match r.peer with
  | some peer => display (toCanonical (if r.trusted.trusts peer then r.seen.addr else peer))
  | none => "unknown"

/-- What a client chooses that is not the content of its lines: how many there are, and
    which of them are visible ASCII. -/
def shape (client : List HeaderValue) : List Bool := client.map HeaderValue.isVisible

/-- The first line that reaches the server ends in the address the proxy saw. -/
def Route.FirstLineObserved (r : Route) (σ : List Bool) : Prop :=
  r.proxy = .overwrites ∨ σ = [] ∨ r.proxy = .appends ∧ σ = [true]

/-- The route keeps a client's lines of this shape out of the key: they are not read, the
    observed address is what is read, or the first line cannot be read and the proxy
    itself is what was observed. -/
def Route.Admits (r : Route) (σ : List Bool) : Prop :=
  r.isTrusted = false ∨ r.FirstLineObserved σ
    ∨ σ.head? = some false
      ∧ r.peer.map (fun peer => display (toCanonical peer)) = some (display (toCanonical r.seen.addr))

instance (r : Route) (σ : List Bool) : Decidable (r.Admits σ) := by
  unfold Route.Admits Route.FirstLineObserved
  infer_instance

/-! ## Lines -/

variable {v : HeaderValue}

theorem trailingIp_of_visible (h : v.isVisible = true) :
    v.trailingIp = (v.chars.splitOn ',').getLast?.bind fun last => parse (trim last) := by
  have hstr : v.toStr = some v.chars := if_pos h
  rw [HeaderValue.trailingIp, hstr]
  rfl

theorem trailingIp_of_not_visible (h : v.isVisible = false) : v.trailingIp = none := by
  have hstr : v.toStr = none := if_neg (by simp [h])
  rw [HeaderValue.trailingIp, hstr]
  rfl

theorem ofNat_ne_comma : ∀ n < 256, n ≠ 44 → Char.ofNat n ≠ ',' := by decide +kernel

theorem comma_not_mem (h : 44 ∉ v.bytes) : ',' ∉ v.chars := by
  intro hmem
  obtain ⟨b, hb, heq⟩ := List.mem_map.mp hmem
  have hne : b.toNat ≠ 44 := by
    intro hval
    have hb44 : b = 44 := UInt8.toNat_inj.mp hval
    exact h (hb44 ▸ hb)
  exact ofNat_ne_comma b.toNat b.toNat_lt hne heq

theorem getLast?_splitOn_append {front last : List Char} (h : ',' ∉ last) :
    ((front ++ ',' :: last).splitOn ',').getLast? = some last := by
  rw [List.splitOn_append_cons_of_beq _ _ (beq_self_eq_true ','), List.splitOn_eq_singleton h,
    List.getLast?_append]
  rfl

theorem isVisible_append (v : HeaderValue) {entry : HeaderValue} (h : entry.isVisible = true) :
    (v.append entry).isVisible = v.isVisible := by
  have hentry : entry.bytes.all isVisibleAscii = true := h
  show (v.bytes ++ 44 :: 32 :: entry.bytes).all isVisibleAscii = v.bytes.all isVisibleAscii
  rw [List.all_append, List.all_cons, List.all_cons, hentry]
  exact Bool.and_true _

theorem chars_append (v entry : HeaderValue) :
    (v.append entry).chars = v.chars ++ ',' :: ' ' :: entry.chars := by
  show (v.bytes ++ 44 :: 32 :: entry.bytes).map _ = _
  rw [List.map_append, List.map_cons, List.map_cons]
  rfl

theorem trailingIp_append (hv : v.isVisible = true) (seen : Observed) :
    (v.append seen.text).trailingIp = some seen.addr := by
  have hline : (v.append seen.text).isVisible = true := (isVisible_append v seen.visible).trans hv
  have hcomma := comma_not_mem seen.noComma
  have hblank : ',' ∉ ' ' :: seen.text.chars := by simpa using hcomma
  have hnames := seen.names
  rw [trailingIp_of_visible seen.visible, List.splitOn_eq_singleton hcomma] at hnames
  rw [trailingIp_of_visible hline, chars_append, getLast?_splitOn_append hblank]
  -- the blank after the comma is trimmed
  exact hnames

/-! ## The first line that arrives -/

variable {r : Route} {client : List HeaderValue}

theorem forwardedClientIp_headers (r : Route) (client : List HeaderValue) :
    forwardedClientIp (r.headers client)
      = (r.proxy.forward r.seen client).head?.bind HeaderValue.trailingIp := by
  have hlines : (r.headers client).lines xForwardedFor = r.proxy.forward r.seen client := by
    show (if xForwardedFor = xForwardedFor then r.proxy.forward r.seen client
      else r.otherLines xForwardedFor) = _
    exact if_pos rfl
  rw [forwardedClientIp, HeaderMap.get, hlines]

theorem key_of_trusted {peer : IpAddr} (hpeer : r.peer = some peer)
    (htrust : r.trusted.trusts peer = true) (client : List HeaderValue) :
    r.key client = display (toCanonical
      (((r.proxy.forward r.seen client).head?.bind HeaderValue.trailingIp).getD peer)) := by
  unfold Route.key clientIpKey
  rw [hpeer, Option.filter_some, if_pos htrust, Option.bind_some, forwardedClientIp_headers]
  cases (r.proxy.forward r.seen client).head?.bind HeaderValue.trailingIp with
  | some forwarded => rfl
  | none => rfl

theorem peer_of_isTrusted (h : r.isTrusted = true) :
    ∃ peer, r.peer = some peer ∧ r.trusted.trusts peer = true := by
  unfold Route.isTrusted at h
  cases hpeer : r.peer with
  | none => simp [hpeer] at h
  | some peer => exact ⟨peer, rfl, by simpa [hpeer] using h⟩

theorem key_of_not_trusted (h : r.isTrusted = false) (client : List HeaderValue) :
    r.key client = r.fact := by
  unfold Route.key clientIpKey Route.fact
  unfold Route.isTrusted at h
  cases hpeer : r.peer with
  | none => rfl
  | some peer =>
    have hnot : r.trusted.trusts peer = false := by simpa [hpeer] using h
    simp [hnot, Option.filter]

theorem fact_of_trusted {peer : IpAddr} (hpeer : r.peer = some peer)
    (htrust : r.trusted.trusts peer = true) : r.fact = display (toCanonical r.seen.addr) := by
  unfold Route.fact
  rw [hpeer]
  simp [htrust]

/-- Where the first line ends in the observed address, it is what the server reads. -/
theorem forward_head_of_firstLineObserved (h : r.FirstLineObserved (shape client)) :
    (r.proxy.forward r.seen client).head?.bind HeaderValue.trailingIp = some r.seen.addr := by
  rcases h with hover | hnone | ⟨happ, hone⟩
  · rw [hover]
    exact r.seen.names
  · obtain rfl : client = [] := List.map_eq_nil_iff.mp hnone
    cases r.proxy with
    | appends => exact r.seen.names
    | addsLine => exact r.seen.names
    | overwrites => exact r.seen.names
  · obtain ⟨line, rfl, hline⟩ := List.map_eq_singleton_iff.mp hone
    rw [happ]
    exact trailingIp_append hline r.seen

/-- A first line with other bytes in it is not read, appended to or not. -/
theorem forward_head_of_not_visible (hover : r.proxy ≠ .overwrites)
    (h : (shape client).head? = some false) :
    (r.proxy.forward r.seen client).head?.bind HeaderValue.trailingIp = none := by
  cases client with
  | nil => exact absurd h (by simp [shape])
  | cons line lines =>
    have hline : line.isVisible = false := by simpa [shape] using h
    cases hproxy : r.proxy with
    | appends =>
      cases lines with
      | nil => exact trailingIp_of_not_visible ((isVisible_append line r.seen.visible).trans hline)
      | cons line' lines =>
        have hlast : (line :: line' :: lines).getLast? = some ((line' :: lines).getLast (by simp)) := by
          rw [List.getLast?_eq_some_getLast (by simp), List.getLast_cons]
        show ((match (line :: line' :: lines).getLast? with
          | some last => (line :: line' :: lines).dropLast ++ [last.append r.seen.text]
          | none => [r.seen.text]).head?.bind HeaderValue.trailingIp) = none
        rw [hlast]
        exact trailingIp_of_not_visible hline
    | addsLine => exact trailingIp_of_not_visible hline
    | overwrites => exact absurd hproxy hover

/-- A client's own first line is the first line the server reads, unless it is the only
    one and the proxy appends to it. -/
theorem forward_head_of_own {line : HeaderValue} {lines : List HeaderValue}
    (hover : r.proxy ≠ .overwrites) (happ : r.proxy = .appends → lines ≠ []) :
    (r.proxy.forward r.seen (line :: lines)).head? = some line := by
  cases hproxy : r.proxy with
  | appends =>
    obtain ⟨line', lines, rfl⟩ := List.exists_cons_of_ne_nil (happ hproxy)
    show (match (line :: line' :: lines).getLast? with
      | some last => (line :: line' :: lines).dropLast ++ [last.append r.seen.text]
      | none => [r.seen.text]).head? = some line
    rw [List.getLast?_eq_some_getLast (by simp)]
    rfl
  | addsLine => rfl
  | overwrites => exact absurd hproxy hover

/-! ## The key and the client's lines -/

theorem key_eq_fact (h : r.Admits (shape client)) : r.key client = r.fact := by
  cases htrust : r.isTrusted with
  | false => exact key_of_not_trusted htrust client
  | true =>
    obtain ⟨peer, hpeer, htrust'⟩ := peer_of_isTrusted htrust
    rw [key_of_trusted hpeer htrust', fact_of_trusted hpeer htrust']
    by_cases hfirst : r.FirstLineObserved (shape client)
    · rw [forward_head_of_firstLineObserved hfirst]
      rfl
    · rcases h with hnot | hobs | ⟨hhead, hsame⟩
      · exact absurd hnot (by simp [htrust])
      · exact absurd hobs hfirst
      · rw [forward_head_of_not_visible (fun hover => hfirst (.inl hover)) hhead]
        rw [hpeer] at hsame
        exact Option.some.inj hsame

/-- `1.1.1.1` -/
def oneLine : HeaderValue := ⟨[49, 46, 49, 46, 49, 46, 49], by decide +kernel⟩

/-- `2.2.2.2` -/
def twoLine : HeaderValue := ⟨[50, 46, 50, 46, 50, 46, 50], by decide +kernel⟩

/-- A line of one byte that is not ASCII, and an empty line. -/
def fillerLine : Bool → HeaderValue
  | true => ⟨[], by simp⟩
  | false => ⟨[255], by decide +kernel⟩

theorem shape_fillerLine (flags : List Bool) : shape (flags.map fillerLine) = flags := by
  have hflag : ∀ flag, (fillerLine flag).isVisible = flag := by decide
  rw [shape, List.map_map]
  calc flags.map (HeaderValue.isVisible ∘ fillerLine) = flags.map id :=
        List.map_congr_left fun flag _ => hflag flag
    _ = flags := List.map_id _

theorem oneLine_trailingIp : oneLine.trailingIp = some (.v4 ⟨1, 1, 1, 1⟩) := by decide +kernel

theorem twoLine_trailingIp : twoLine.trailingIp = some (.v4 ⟨2, 2, 2, 2⟩) := by decide +kernel

/-- A shape the route does not admit leaves the client lines that make two keys, or one
    that is not what was observed. -/
theorem exists_key_ne {σ : List Bool} (h : ¬ r.Admits σ) :
    ∃ client, shape client = σ ∧ r.key client ≠ r.fact := by
  simp only [Route.Admits, not_or] at h
  obtain ⟨htrust, hfirst, hself⟩ := h
  obtain ⟨peer, hpeer, htrust⟩ := peer_of_isTrusted (by simpa using htrust)
  simp only [Route.FirstLineObserved, not_or] at hfirst
  obtain ⟨hover, hsome, hone⟩ := hfirst
  have hfact := fact_of_trusted hpeer htrust
  cases σ with
  | nil => exact absurd rfl hsome
  | cons flag flags =>
    cases flag with
    | false =>
      -- the fallback to the proxy's own address
      refine ⟨(false :: flags).map fillerLine, shape_fillerLine _, ?_⟩
      rw [key_of_trusted hpeer htrust, hfact, forward_head_of_not_visible hover]
      · intro heq
        refine hself ⟨rfl, ?_⟩
        rw [hpeer]
        exact congrArg some heq
      · rw [shape_fillerLine]
        rfl
    | true =>
      have happ : r.proxy = .appends → flags.map fillerLine ≠ [] := by
        rintro happ hnil
        exact hone ⟨happ, by rw [List.map_eq_nil_iff.mp hnil]⟩
      -- of two spoofed addresses, one is not the observed one
      have hkey {line : HeaderValue} {addr : IpAddr} (hline : line.trailingIp = some addr) :
          r.key (line :: flags.map fillerLine) = display (toCanonical addr) := by
        rw [key_of_trusted hpeer htrust, forward_head_of_own hover happ, Option.bind_some, hline]
        rfl
      have hshape {line : HeaderValue} (hline : line.isVisible = true) :
          shape (line :: flags.map fillerLine) = true :: flags := by
        show line.isVisible :: shape (flags.map fillerLine) = _
        rw [hline, shape_fillerLine]
      by_cases hfact1 : display (toCanonical (.v4 ⟨1, 1, 1, 1⟩)) = r.fact
      · have htwo : twoLine.isVisible = true := by decide
        refine ⟨_, hshape htwo, ?_⟩
        rw [hkey twoLine_trailingIp, ← hfact1]
        decide +kernel
      · have hone : oneLine.isVisible = true := by decide
        refine ⟨_, hshape hone, ?_⟩
        rwa [hkey oneLine_trailingIp]

/-- For every route and every kind of request, given by how many lines the client may
    send and which of them are visible ASCII: all these requests share one key, the key
    of what was observed, exactly when the route admits all of them.  A peer has one key
    whichever way its address is spelled, and so has the address a proxy saw. -/
theorem keyed_iff (r : Route) (kinds : Set (List Bool)) :
    ((∀ client, shape client ∈ kinds → ∀ client', shape client' ∈ kinds →
        r.key client = r.key client' ∧ r.key client = r.fact)
      ↔ ∀ σ ∈ kinds, r.Admits σ)
    ∧ (∀ (headers : HeaderMap) (trusted : TrustedProxies) (addr : Ipv4Addr),
        clientIpKey headers (some (.v6 addr.toIpv6Mapped)) trusted
          = clientIpKey headers (some (.v4 addr)) trusted)
    ∧ ∀ seen : Observed, toCanonical seen.addr = toCanonical r.seen.addr →
        Route.fact { r with seen := seen } = r.fact := by
  refine ⟨⟨fun hsame σ hσ => ?_, fun hadm client hc client' hc' => ?_⟩, ?_, ?_⟩
  · by_contra hnot
    obtain ⟨client, rfl, hne⟩ := exists_key_ne hnot
    exact hne (hsame client hσ client hσ).2
  · have hkey := key_eq_fact (hadm _ hc)
    exact ⟨hkey.trans (key_eq_fact (hadm _ hc')).symm, hkey⟩
  · intro headers trusted addr
    have hcanon := toCanonical_toIpv6Mapped addr
    -- a mapped address is trusted, and shown, as the address it maps
    have htrust : trusted.trusts (.v6 addr.toIpv6Mapped) = trusted.trusts (.v4 addr) := by
      rw [TrustedProxies.trusts, TrustedProxies.trusts, hcanon]
    unfold clientIpKey
    cases hpeer : trusted.trusts (.v4 addr) with
    | true =>
      rw [Option.filter_some, Option.filter_some, if_pos (htrust.trans hpeer), if_pos hpeer]
      cases forwardedClientIp headers with
      | some forwarded => rfl
      | none => exact congrArg display hcanon
    | false =>
      rw [Option.filter_some, Option.filter_some, if_neg (by simp [htrust, hpeer]),
        if_neg (by simp [hpeer])]
      exact congrArg display hcanon
  · intro seen hcanon
    unfold Route.fact
    cases r.peer with
    | none => rfl
    | some peer =>
      show display (toCanonical (if r.trusted.trusts peer then seen.addr else peer))
        = display (toCanonical (if r.trusted.trusts peer then r.seen.addr else peer))
      cases r.trusted.trusts peer with
      | true => exact congrArg display hcanon
      | false => rfl

/-- A proxy at 198.51.100.4 that adds a line of its own for the client 10.0.0.5 it saw. -/
def addingRoute : Route where
  peer := some (.v4 ⟨198, 51, 100, 4⟩)
  trusted := .new [.v4 ⟨198, 51, 100, 4⟩]
  proxy := .addsLine
  seen :=
    { text := ⟨[49, 48, 46, 48, 46, 48, 46, 53], by decide +kernel⟩
      addr := .v4 ⟨10, 0, 0, 5⟩
      visible := by decide
      noComma := by decide
      names := by decide +kernel }
  otherLines := fun _ => []

/-- The client of such a proxy chooses its key. -/
theorem not_keyed_of_own_line :
    addingRoute.key [oneLine] = "1.1.1.1" ∧ addingRoute.key [twoLine] = "2.2.2.2"
      ∧ addingRoute.fact = "10.0.0.5" := by
  decide +kernel

end Server
end Inkentry
