/-
  Inkentry.Dump.Container

  The container of a portable dump, byte by byte: lines that end in a line feed,
  a header first, a footer last, and a digest over everything before the footer.

  On text the reader here is the reader of `Dump.Reader` (`read_encode`).  The
  digest binds the lines before the footer for as long as the hash does not
  collide on what it is given (`lines_eq_of_digestOf_eq`).  The reader does not
  look at what the first and the last line call themselves, and it takes arrays
  for objects; `containerLaw_iff` says exactly which files it should not have
  accepted.
-/

import Inkentry.Dump.Wire
import Inkentry.Dump.ReaderSpec
import Inkentry.Lib.Utf8
import Inkentry.Lib.TextLines

namespace Inkentry
namespace PortableDump
namespace Bytes

open SortedSet

/-! ## The reader -/

abbrev Line := List UInt8

/-- What a reader of bytes is given: the JSON tree of a line, and SHA-256. -/
structure WireEnv where
  tree : Line → Option Json
  sha256 : List UInt8 → List UInt8
  sha256_length : ∀ bytes, (sha256 bytes).length = 32

def hexByte (b : UInt8) : List Char := [Nat.digitChar (b.toNat / 16), Nat.digitChar (b.toNat % 16)]

def hexEncode (bytes : List UInt8) : List Char := bytes.flatMap hexByte

variable (env : WireEnv)

def WireEnv.parseHeader (line : Line) : Option Header := (env.tree line).bind Header.ofJson

def WireEnv.parseFooter (line : Line) : Option Footer := (env.tree line).bind Footer.ofJson

def WireEnv.parseRecord (line : Line) : Option Record := (env.tree line).bind Record.ofJson

/-- The hex digest of some bytes. -/
def WireEnv.hexDigest (bytes : List UInt8) : List Char := hexEncode (env.sha256 bytes)

/-- The hex digest of a text. -/
def WireEnv.shaText (text : String) : String :=
  String.ofList (env.hexDigest (Utf8.encode text.toList))

/-- Splits on line feeds; the last line must be complete. -/
def splitLines (bytes : List UInt8) : Except ReadError (List Line) :=
  if bytes = [] then .error .empty
  else if bytes.getLast? = some 10 then .ok (bytes.dropLast.splitOn 10)
  else .error .noFinalNewline

/-- The records between the header and the footer; `n` is the number of the next line. -/
def readBody : Nat → List Line → Except ReadError (List Entity × List Relationship)
  | _, [] => .ok ([], [])
  | n, line :: rest =>
    match env.parseRecord line with
    | none => .error (.badRecord n)
    | some .header => .error (.secondHeader n)
    | some .footer => .error (.footerInside n)
    | some (.entity e) => do
      let (entities, relationships) ← readBody (n + 1) rest
      return (e :: entities, relationships)
    | some (.relationship r) => do
      let (entities, relationships) ← readBody (n + 1) rest
      return (entities, r :: relationships)

/-- What the digest is taken of: the digests of the lines as hex text, in order. -/
def hexText (lines : List Line) : List Char := lines.flatMap env.hexDigest

def digestOf (lines : List Line) : String :=
  "sha256:" ++ String.ofList (env.hexDigest (Utf8.encode (hexText env lines)))

def verifyDigest (declared : String) (lines : List Line) : Except ReadError Unit :=
  let found := digestOf env lines
  if found = declared then .ok () else .error (.digestMismatch declared found)

def checkHeader (first : Line) : Except ReadError Unit :=
  match env.parseHeader first with
  | none => .error .badHeader
  | some header =>
    if header.format ≠ FORMAT then .error (.wrongFormat header.format)
    else if header.formatVersion ≠ FORMAT_VERSION then
      .error (.unsupportedVersion header.formatVersion)
    else .ok ()

def readFooter (last : Line) : Except ReadError Footer :=
  match env.parseFooter last with
  | none => .error .badFooter
  | some footer => .ok footer

def readFramed (first : Line) (body : List Line) (last : Line) : Except ReadError Dump := do
  checkHeader env first
  let footer ← readFooter env last
  let (entities, relationships) ← readBody env 2 body
  verifyCounts footer.counts entities relationships
  verifyDigest env footer.digest (first :: body)
  indexByRef entities
  refuseBlankIdentities (entities.filterMap Entity.memory?)
  refuseRepeatedIdentities [] [] (entities.filterMap Entity.memory?)
  let resolved ← resolve entities (dedupe relationships)
  let collapsed := collapseByConvergenceKey env.shaText entities
  return ⟨collapsed.entities, redirectToSurvivors resolved collapsed.remap, collapsed.merged⟩

def read (bytes : List UInt8) : Except ReadError Dump := do
  match ← splitLines bytes with
  | first :: second :: rest =>
    readFramed env first (second :: rest).dropLast ((second :: rest).getLastD second)
  | _ => throw .notADump

/-! ## On text -/

/-- The reader of text that reads its bytes. -/
def WireEnv.onText : ReaderEnv where
  parseHeader line := env.parseHeader (Utf8.encode line.toList)
  parseFooter line := env.parseFooter (Utf8.encode line.toList)
  parseRecord line := env.parseRecord (Utf8.encode line.toList)
  sha256 := env.shaText

def encodeLine (line : String) : Line := Utf8.encode line.toList

theorem readBody_encode (n : Nat) (body : List String) :
    readBody env n (body.map encodeLine) = PortableDump.readBody env.onText n body := by
  induction body generalizing n with
  | nil => rfl
  | cons line rest ih =>
    rw [List.map_cons, readBody, PortableDump.readBody, ih]
    rfl

theorem digestOf_encode (lines : List String) :
    digestOf env (lines.map encodeLine) = PortableDump.digestOf env.onText lines := by
  have htext : hexText env (lines.map encodeLine)
      = (String.join (lines.map env.onText.sha256)).toList := by
    induction lines with
    | nil => rfl
    | cons line rest ih =>
      rw [hexText] at ih
      rw [List.map_cons, List.map_cons, hexText, List.flatMap_cons, ih, String.join_cons,
        String.toList_append]
      show _ = (String.ofList _).toList ++ _
      rw [String.toList_ofList]
      rfl
  rw [digestOf, PortableDump.digestOf, htext]
  rfl

theorem readFramed_encode (first : String) (body : List String) (last : String) :
    readFramed env (encodeLine first) (body.map encodeLine) (encodeLine last)
      = PortableDump.readFramed env.onText first body last := by
  have hdigest (declared : String) :
      verifyDigest env declared (encodeLine first :: body.map encodeLine)
        = PortableDump.verifyDigest env.onText declared (first :: body) := by
    rw [verifyDigest, PortableDump.verifyDigest, ← List.map_cons, digestOf_encode]
  rw [readFramed, PortableDump.readFramed, readBody_encode]
  simp only [hdigest]
  rfl

theorem splitLines_encode (text : String) :
    splitLines (Utf8.encode text.toList)
      = (PortableDump.splitLines text).map (·.map encodeLine) := by
  rw [splitLines, PortableDump.splitLines]
  rcases List.eq_nil_or_concat text.toList with hnil | ⟨front, c, hfront⟩
  · rw [hnil, if_pos rfl, Utf8.encode_nil, if_pos rfl]
    rfl
  have hbytes : Utf8.encode text.toList = Utf8.encode front ++ String.utf8EncodeChar c := by
    rw [hfront, List.concat_eq_append, Utf8.encode_append, Utf8.encode_cons, Utf8.encode_nil,
      List.append_nil]
  have hchar : String.utf8EncodeChar c ≠ [] :=
    List.ne_nil_of_length_pos (Utf8.length_utf8EncodeChar_pos c)
  have hlast : text.toList.getLast? = some c := by
    rw [hfront, List.concat_eq_append, List.getLast?_concat]
  have htextNe : text.toList ≠ [] := by
    rw [hfront, List.concat_eq_append]
    exact List.concat_ne_nil c front
  have hbytesNe : Utf8.encode text.toList ≠ [] := by
    rw [hbytes]
    exact List.append_ne_nil_of_right_ne_nil _ hchar
  rw [if_neg hbytesNe, if_neg htextNe, hlast]
  by_cases hlf : c = '\n'
  · subst hlf
    have hbytes : Utf8.encode text.toList = Utf8.encode front ++ [10] := hbytes
    have htext : text.toList.dropLast = front := by
      rw [hfront, List.concat_eq_append, List.dropLast_concat]
    rw [if_pos (show some '\n' = some '\n' from rfl), htext, hbytes, if_pos List.getLast?_concat, List.dropLast_concat,
      Utf8.splitOn_encode]
    show _ = Except.ok (((front.splitOn '\n').map String.ofList).map encodeLine)
    rw [List.map_map]
    refine congrArg Except.ok (List.map_congr_left fun line _ => ?_)
    rw [Function.comp_apply, encodeLine, String.toList_ofList]
  · -- the last byte of another character is no line feed
    have hbyte : (Utf8.encode text.toList).getLast? ≠ some 10 := by
      rw [hbytes, List.getLast?_append_of_ne_nil _ hchar]
      exact fun h => hlf (Utf8.lf_mem_utf8EncodeChar (List.mem_of_getLast? h))
    rw [if_neg hbyte, if_neg (by simpa using hlf)]
    rfl

theorem read_encode (text : String) :
    read env (Utf8.encode text.toList) = PortableDump.read env.onText text := by
  rw [read, PortableDump.read, splitLines_encode]
  cases PortableDump.splitLines text with
  | error e => rfl
  | ok lines =>
    match lines with
    | [] => rfl
    | [_] => rfl
    | first :: second :: rest =>
      have hdrop : (encodeLine second :: rest.map encodeLine).dropLast
          = (second :: rest).dropLast.map encodeLine := by
        rw [← List.map_cons, List.map_dropLast]
      have hlast : (encodeLine second :: rest.map encodeLine).getLastD (encodeLine second)
          = encodeLine ((second :: rest).getLastD second) := by
        rw [← List.map_cons, List.getLastD_eq_getLast?, List.getLastD_eq_getLast?,
          List.getLast?_map]
        cases (second :: rest).getLast? with
        | none => rfl
        | some last => rfl
      show readFramed env (encodeLine first) (encodeLine second :: rest.map encodeLine).dropLast
          ((encodeLine second :: rest.map encodeLine).getLastD (encodeLine second))
        = PortableDump.readFramed env.onText first (second :: rest).dropLast
          ((second :: rest).getLastD second)
      rw [hdrop, hlast, readFramed_encode]

/-! ## The lines of a file -/

variable {bytes : List UInt8}
variable {lines : List Line}

theorem intercalate_append_sep (sep : UInt8) (hne : lines ≠ []) :
    [sep].intercalate lines ++ [sep] = lines.flatMap (· ++ [sep]) := by
  obtain ⟨line, rest, rfl⟩ := List.exists_cons_of_ne_nil hne
  induction rest generalizing line with
  | nil => simp
  | cons next rest ih =>
    rw [List.intercalate_cons_cons, List.flatMap_cons, ← ih next (by simp), List.append_assoc,
      List.append_assoc]

/-- What is split into lines is those lines, each with a line feed at its end. -/
theorem splitLines_eq_ok_iff :
    splitLines bytes = .ok lines
      ↔ lines ≠ [] ∧ bytes = lines.flatMap (· ++ [10]) ∧ ∀ line ∈ lines, (10 : UInt8) ∉ line := by
  constructor
  · intro h
    rw [splitLines] at h
    split at h
    · exact absurd h (by simp)
    · split at h
      · next hne hlast =>
        obtain rfl := Except.ok.inj h
        have hsplit : bytes.dropLast.splitOn 10 ≠ [] := List.splitOn_ne_nil 10 _
        refine ⟨hsplit, ?_, fun line hline => TextLines.not_mem_of_mem_splitOn hline⟩
        have hlf : bytes.getLast hne = 10 := by
          rw [List.getLast?_eq_some_getLast hne] at hlast
          exact Option.some.inj hlast
        rw [← intercalate_append_sep 10 hsplit, List.intercalate_splitOn, ← hlf,
          List.dropLast_append_getLast hne]
      · exact absurd h (by simp)
  · rintro ⟨hne, rfl, hlines⟩
    rw [← intercalate_append_sep 10 hne, splitLines, if_neg (by simp),
      if_pos List.getLast?_concat, List.dropLast_concat, List.splitOn_intercalate 10 hlines hne]

/-! ## When bytes are accepted -/

def entitiesOf (body : List Line) : List Entity :=
  body.filterMap fun line => (env.parseRecord line).bind Record.entity?

def relationshipsOf (body : List Line) : List Relationship :=
  body.filterMap fun line => (env.parseRecord line).bind Record.relationship?

/-- A line that is read as an entity or a relationship. -/
def isBodyLine (line : Line) : Prop :=
  ∃ record, env.parseRecord line = some record ∧ record ≠ .header ∧ record ≠ .footer

variable {env}
variable {body : List Line} {last : Line} {first : Line}

theorem readBody_eq_ok_iff {n : Nat} {got : List Entity × List Relationship} :
    readBody env n body = .ok got
      ↔ (∀ line ∈ body, isBodyLine env line)
        ∧ got = (entitiesOf env body, relationshipsOf env body) := by
  induction body generalizing n got with
  | nil => simp [readBody, entitiesOf, relationshipsOf, eq_comm]
  | cons line rest ih =>
    rw [readBody, List.forall_mem_cons, entitiesOf, relationshipsOf, List.filterMap_cons,
      List.filterMap_cons, ← entitiesOf, ← relationshipsOf, isBodyLine]
    cases env.parseRecord line with
    | none => simp
    | some record =>
      -- a second header or footer is refused; entities and relationships are collected apart
      cases record with
      | header | footer => simp
      | entity x | relationship x =>
        simp only [bind_eq_ok_iff, ih, pure, Except.pure, Except.ok.injEq]
        simp only [Option.bind_some, Record.entity?, Record.relationship?]
        constructor
        · rintro ⟨-, ⟨hrest, rfl⟩, rfl⟩
          exact ⟨⟨⟨_, rfl, by simp, by simp⟩, hrest⟩, rfl⟩
        · rintro ⟨⟨-, hrest⟩, rfl⟩
          exact ⟨_, ⟨hrest, rfl⟩, rfl⟩

/-- What the checks ask of a file, whatever its lines call themselves. -/
structure Readable (env : WireEnv) (first : Line) (body : List Line) (last : Line) : Prop where
  header : ∃ header, env.parseHeader first = some header ∧ header.format = FORMAT
    ∧ header.formatVersion = FORMAT_VERSION
  footer : env.parseFooter last
    = some ⟨foundCounts (entitiesOf env body) (relationshipsOf env body),
        digestOf env (first :: body)⟩
  body_lines : ∀ line ∈ body, isBodyLine env line
  entities : SoundEntities (entitiesOf env body)
  resolves : ∃ resolved,
    resolve (entitiesOf env body) (dedupe (relationshipsOf env body)) = .ok resolved

theorem checkHeader_eq_ok_iff : checkHeader env first = .ok ()
    ↔ ∃ header, env.parseHeader first = some header ∧ header.format = FORMAT
      ∧ header.formatVersion = FORMAT_VERSION := by
  rw [checkHeader]
  cases env.parseHeader first with
  | none => simp
  | some header =>
    by_cases hformat : header.format = FORMAT
    · by_cases hversion : header.formatVersion = FORMAT_VERSION
      · simp [hformat, hversion]
      · simp [hformat, hversion]
    · simp [hformat]

theorem readFooter_eq_ok_iff {footer : Footer} :
    readFooter env last = .ok footer ↔ env.parseFooter last = some footer := by
  rw [readFooter]
  cases env.parseFooter last with
  | none => simp
  | some footer => simp

theorem verifyDigest_eq_ok_iff {declared : String} :
    verifyDigest env declared lines = .ok () ↔ digestOf env lines = declared := by
  rw [verifyDigest]
  split <;> simp [*]

theorem verifyCounts_eq_ok_iff {declared : Counts} {entities : List Entity}
    {relationships : List Relationship} :
    verifyCounts declared entities relationships = .ok ()
      ↔ foundCounts entities relationships = declared := by
  rw [verifyCounts]
  split <;> simp [*]

theorem exists_readFramed_iff :
    (∃ d, readFramed env first body last = .ok d) ↔ Readable env first body last := by
  simp only [readFramed, bind_eq_ok_iff, readBody_eq_ok_iff, readFooter_eq_ok_iff]
  constructor
  · rintro ⟨_, _, hhead, ⟨counts, digest⟩, hfoot, _, ⟨hbody, rfl⟩, _, hc, _, hd, _, hrefs, _,
      hblank, _, hrepeated, resolved, hres, -⟩
    obtain rfl : _ = counts := verifyCounts_eq_ok_iff.mp hc
    obtain rfl : _ = digest := verifyDigest_eq_ok_iff.mp hd
    exact ⟨checkHeader_eq_ok_iff.mp hhead, hfoot, hbody, checks_eq_ok_iff.mp ⟨hrefs, hblank, hrepeated⟩, resolved, hres⟩
  · rintro ⟨hhead, hfoot, hbody, hsound, resolved, hres⟩
    obtain ⟨hrefs, hblank, hrepeated⟩ := checks_eq_ok_iff.mpr hsound
    exact ⟨_, (), checkHeader_eq_ok_iff.mpr hhead, _, hfoot, _, ⟨hbody, rfl⟩,
      (), verifyCounts_eq_ok_iff.mpr rfl, (), verifyDigest_eq_ok_iff.mpr rfl, (), hrefs, (),
      hblank, (), hrepeated, resolved, hres, rfl⟩

theorem read_of_lines (h : splitLines bytes = .ok (first :: (body ++ [last]))) :
    read env bytes = readFramed env first body last := by
  rw [read, h]
  cases body with
  | nil => rfl
  | cons second rest =>
    show readFramed env first (second :: (rest ++ [last])).dropLast
      ((second :: (rest ++ [last])).getLastD second) = _
    rw [← List.cons_append, List.dropLast_concat, List.getLastD_concat]

theorem exists_readable {d : Dump} (h : read env bytes = .ok d) :
    ∃ first body last, splitLines bytes = .ok (first :: (body ++ [last]))
      ∧ Readable env first body last := by
  obtain ⟨lines, hlines, hread⟩ := bind_eq_ok_iff.mp h
  split at hread
  case h_1 first second rest =>
    have hframed : second :: rest = (second :: rest).dropLast ++ [(second :: rest).getLast (by simp)] :=
      (List.dropLast_append_getLast _).symm
    have hsplit : splitLines bytes
        = .ok (first :: ((second :: rest).dropLast ++ [(second :: rest).getLast (by simp)])) := by
      rw [← hframed]
      exact hlines
    refine ⟨first, _, _, hsplit, exists_readFramed_iff.mp ⟨d, ?_⟩⟩
    rw [← read_of_lines hsplit]
    exact h
  case h_2 => exact absurd hread (by simp [throw, throwThe, MonadExceptOf.throw])

theorem exists_read_iff :
    (∃ d, read env bytes = .ok d) ↔ ∃ first body last,
      splitLines bytes = .ok (first :: (body ++ [last])) ∧ Readable env first body last := by
  constructor
  · rintro ⟨d, hd⟩
    exact exists_readable hd
  · rintro ⟨first, body, last, hsplit, hreadable⟩
    obtain ⟨d, hd⟩ := exists_readFramed_iff.mpr hreadable
    exact ⟨d, by rw [read_of_lines hsplit, hd]⟩

/-! ## The digest binds the lines -/

theorem digitChar_inj : ∀ a < 16, ∀ b < 16, Nat.digitChar a = Nat.digitChar b → a = b := by decide

theorem hexByte_inj {a b : UInt8} (h : hexByte a = hexByte b) : a = b := by
  obtain ⟨hhigh, htail⟩ := List.cons.inj h
  have ha := a.toNat_lt
  have hb := b.toNat_lt
  have hdiv := digitChar_inj _ (by omega) _ (by omega) hhigh
  have hmod := digitChar_inj _ (by omega) _ (by omega) (List.cons.inj htail).1
  refine UInt8.toNat_inj.mp ?_
  omega

theorem length_hexEncode (bytes : List UInt8) : (hexEncode bytes).length = 2 * bytes.length := by
  induction bytes with
  | nil => rfl
  | cons b rest ih =>
    rw [hexEncode, List.flatMap_cons, List.length_append, ← hexEncode, ih, List.length_cons]
    show 2 + _ = _
    omega

theorem hexEncode_inj {bytes bytes' : List UInt8} (h : hexEncode bytes = hexEncode bytes') :
    bytes = bytes' := by
  induction bytes generalizing bytes' with
  | nil =>
    have hlength := congrArg List.length h
    rw [length_hexEncode, length_hexEncode, List.length_nil] at hlength
    exact (List.eq_nil_of_length_eq_zero (by omega)).symm
  | cons b rest ih =>
    cases bytes' with
    | nil =>
      have hlength := congrArg List.length h
      rw [length_hexEncode, length_hexEncode, List.length_cons, List.length_nil] at hlength
      omega
    | cons b' rest' =>
      have happ : hexByte b ++ hexEncode rest = hexByte b' ++ hexEncode rest' := h
      obtain ⟨hb, hrest⟩ := List.append_inj happ rfl
      rw [hexByte_inj hb, ih hrest]

theorem length_hexDigest (env : WireEnv) (bytes : List UInt8) :
    (env.hexDigest bytes).length = 64 := by
  rw [WireEnv.hexDigest, length_hexEncode, env.sha256_length]

theorem hexText_cons (env : WireEnv) (line : Line) (rest : List Line) :
    hexText env (line :: rest) = env.hexDigest line ++ hexText env rest := by
  rw [hexText, List.flatMap_cons, hexText]

theorem hexText_nil (env : WireEnv) : hexText env [] = [] := rfl

/-- No two of the inputs have one hash. -/
def CollisionFree (env : WireEnv) (inputs : List (List UInt8)) : Prop :=
  ∀ a ∈ inputs, ∀ b ∈ inputs, env.sha256 a = env.sha256 b → a = b

/-- What is hashed for the digest of some lines. -/
def hashed (env : WireEnv) (lines : List Line) : List (List UInt8) :=
  Utf8.encode (hexText env lines) :: lines

theorem lines_eq_of_hexText_eq {lines lines' : List Line}
    (hfree : ∀ a ∈ lines, ∀ b ∈ lines', env.sha256 a = env.sha256 b → a = b)
    (h : hexText env lines = hexText env lines') : lines = lines' := by
  induction lines generalizing lines' with
  | nil =>
    cases lines' with
    | nil => rfl
    | cons line' rest' =>
      have hlength := congrArg List.length h
      rw [hexText_cons, hexText_nil, List.length_append, length_hexDigest, List.length_nil] at hlength
      omega
  | cons line rest ih =>
    cases lines' with
    | nil =>
      have hlength := congrArg List.length h
      rw [hexText_cons, hexText_nil, List.length_append, length_hexDigest, List.length_nil] at hlength
      omega
    | cons line' rest' =>
      rw [hexText_cons, hexText_cons] at h
      -- every digest is 64 characters long, so the texts part where the lines do
      obtain ⟨hhead, htail⟩ := List.append_inj h (by rw [length_hexDigest, length_hexDigest])
      have hline : line = line' :=
        hfree line (List.mem_cons_self ..) line' (List.mem_cons_self ..) (hexEncode_inj hhead)
      rw [hline, ih (fun a ha b hb => hfree a (List.mem_cons_of_mem _ ha) b
        (List.mem_cons_of_mem _ hb)) htail]

theorem toList_digestOf (env : WireEnv) (lines : List Line) :
    (digestOf env lines).toList
      = "sha256:".toList ++ env.hexDigest (Utf8.encode (hexText env lines)) := by
  rw [digestOf, String.toList_append]
  exact congrArg _ String.toList_ofList

theorem lines_eq_of_digestOf_eq {lines lines' : List Line}
    (hfree : CollisionFree env (hashed env lines ++ hashed env lines'))
    (h : digestOf env lines = digestOf env lines') : lines = lines' := by
  have htext : env.hexDigest (Utf8.encode (hexText env lines))
      = env.hexDigest (Utf8.encode (hexText env lines')) := by
    have hlist := congrArg String.toList h
    rw [toList_digestOf, toList_digestOf] at hlist
    exact List.append_cancel_left hlist
  have hencoded := hfree _ (List.mem_append_left _ (List.mem_cons_self ..)) _
    (List.mem_append_right _ (List.mem_cons_self ..)) (hexEncode_inj htext)
  refine lines_eq_of_hexText_eq (fun a ha b hb => ?_) (Utf8.encode_inj hencoded)
  exact hfree a (List.mem_append_left _ (List.mem_cons_of_mem _ ha)) b
    (List.mem_append_right _ (List.mem_cons_of_mem _ hb))

/-! ## The documented container -/

/-- The counts name every type there is a record of, and how many. -/
def Counted (declared : List (String × Nat)) (names : List String) : Prop :=
  ∀ name n, (name, n) ∈ declared ↔ 0 < n ∧ n = names.count name

/-- A line that names itself an entity or a relationship and is one. -/
def IsRecord (env : WireEnv) (line : Line) : Prop :=
  ∃ j, env.tree line = some j
    ∧ ((recordField j = some "entity" ∧ ∃ e, Record.ofJson j = some (.entity e))
      ∨ (recordField j = some "relationship" ∧ ∃ r, Record.ofJson j = some (.relationship r)))

/-- The container as it is documented. -/
structure Container (env : WireEnv) (first : Line) (body : List Line) (last : Line) : Prop where
  header : ∃ j header, env.tree first = some j ∧ recordField j = some "header"
    ∧ Header.ofJson j = some header ∧ header.format = FORMAT
    ∧ header.formatVersion = FORMAT_VERSION
  records : ∀ line ∈ body, IsRecord env line
  footer : ∃ j footer, env.tree last = some j ∧ recordField j = some "footer"
    ∧ Footer.ofJson j = some footer
    ∧ Counted footer.counts.entity ((entitiesOf env body).map Entity.typeName)
    ∧ Counted footer.counts.relationship ((relationshipsOf env body).map fun r => r.kind.asStr)
    ∧ footer.digest = digestOf env (first :: body)

/-- The file is lines that end in a line feed, and these make up a container. -/
def Documented (env : WireEnv) (bytes : List UInt8) : Prop :=
  ∃ first body last, bytes = (first :: (body ++ [last])).flatMap (· ++ [10])
    ∧ (∀ line ∈ first :: (body ++ [last]), (10 : UInt8) ∉ line) ∧ Container env first body last

def Accepted (env : WireEnv) (bytes : List UInt8) : Prop := ∃ d, read env bytes = .ok d

/-- What the reader owes of one file. -/
structure ContainerLaw (env : WireEnv) (bytes : List UInt8) : Prop where
  documented : Accepted env bytes → Documented env bytes
  /-- two accepted files with one digest are the same before the footer -/
  binding : ∀ other lines last lines' last' footer footer',
    Accepted env bytes → splitLines bytes = .ok (lines ++ [last]) →
    Accepted env other → splitLines other = .ok (lines' ++ [last']) →
    env.parseFooter last = some footer → env.parseFooter last' = some footer' →
    footer.digest = footer'.digest →
    CollisionFree env (hashed env lines ++ hashed env lines') → lines = lines'
  /-- other lines under the same footer are refused -/
  sealed : ∀ other lines last lines',
    Accepted env bytes → splitLines bytes = .ok (lines ++ [last]) →
    splitLines other = .ok (lines' ++ [last]) → lines' ≠ lines →
    CollisionFree env (hashed env lines ++ hashed env lines') → ¬ Accepted env other

/-- The first and the last line call themselves header and footer, and the lines between
    are objects. -/
structure Named (env : WireEnv) (first : Line) (body : List Line) (last : Line) : Prop where
  first : ∃ j, env.tree first = some j ∧ recordField j = some "header"
  body : ∀ line ∈ body, ∃ j, env.tree line = some j ∧ j.isObject = true
  last : ∃ j, env.tree last = some j ∧ recordField j = some "footer"

theorem mem_countByName {names : List String} {name : String} {n : Nat} :
    (name, n) ∈ countByName names ↔ 0 < n ∧ n = names.count name := by
  rw [countByName, List.mem_map]
  constructor
  · rintro ⟨x, hx, heq⟩
    obtain ⟨rfl, rfl⟩ := Prod.mk.inj heq
    exact ⟨List.count_pos_iff.mpr (mem_sortDedup.mp hx), rfl⟩
  · rintro ⟨hpos, rfl⟩
    exact ⟨name, mem_sortDedup.mpr (List.count_pos_iff.mp hpos), rfl⟩

theorem splitTag_obj {tag : String} {members : List (String × Json)} {value content : Json}
    (h : splitTag tag (.obj members) = some (value, content)) :
    ∃ m, (members.filter fun m => m.1 = tag) = [m] ∧ m.2 = value := by
  rw [splitTag] at h
  split at h
  case h_1 m hm => exact ⟨m, hm, (Prod.mk.inj (Option.some.inj h)).1⟩
  case h_2 => exact absurd h (by simp)

theorem recordField_of_ofJson {j : Json} {record : Record} (hobj : j.isObject = true)
    (h : Record.ofJson j = some record) : (recordField j = some "entity" ∧ ∃ e, record = .entity e)
      ∨ (recordField j = some "relationship" ∧ ∃ r, record = .relationship r)
      ∨ record = .header ∨ record = .footer := by
  cases j with
  | obj members =>
    have hname (s : String) (content : Json)
        (hsplit : splitTag "record" (.obj members) = some (.str s, content)) :
        recordField (.obj members) = some s := by
      obtain ⟨⟨name, value⟩, hm, hvalue⟩ := splitTag_obj hsplit
      obtain rfl : value = .str s := hvalue
      rw [recordField, hm]
    rw [Record.ofJson] at h
    split at h
    · split at h
      case h_1 content hsplit =>
        obtain ⟨e, -, he⟩ := Option.map_eq_some_iff.mp h
        exact Or.inl ⟨hname _ _ hsplit, e, he.symm⟩
      case h_2 content hsplit =>
        obtain ⟨r, -, hr⟩ := Option.map_eq_some_iff.mp h
        exact Or.inr (Or.inl ⟨hname _ _ hsplit, r, hr.symm⟩)
      case h_3 => exact Or.inr (Or.inr (Or.inl (Option.some.inj h).symm))
      case h_4 => exact Or.inr (Or.inr (Or.inr (Option.some.inj h).symm))
      case h_5 => exact absurd h (by simp)
    · exact absurd h (by simp)
  | _ => exact absurd hobj (by simp [Json.isObject])

theorem isRecord_of_isBodyLine {line : Line} (h : isBodyLine env line) {j : Json}
    (hj : env.tree line = some j) (hobj : j.isObject = true) : IsRecord env line := by
  obtain ⟨record, hrecord, hheader, hfooter⟩ := h
  have hread : Record.ofJson j = some record := by
    rw [WireEnv.parseRecord, hj] at hrecord
    exact hrecord
  refine ⟨j, hj, ?_⟩
  rcases recordField_of_ofJson hobj hread with ⟨hname, e, rfl⟩ | ⟨hname, r, rfl⟩ | rfl | rfl
  · exact Or.inl ⟨hname, e, hread⟩
  · exact Or.inr ⟨hname, r, hread⟩
  · exact absurd rfl hheader
  · exact absurd rfl hfooter

theorem Readable.container (h : Readable env first body last) (hnamed : Named env first body last) :
    Container env first body last := by
  refine ⟨?header, ?records, ?footer⟩
  case header =>
    obtain ⟨j, hj, hname⟩ := hnamed.first
    obtain ⟨header, hheader, hformat, hversion⟩ := h.header
    rw [WireEnv.parseHeader, hj] at hheader
    exact ⟨j, header, hj, hname, hheader, hformat, hversion⟩
  case records =>
    intro line hline
    obtain ⟨j, hj, hobj⟩ := hnamed.body line hline
    exact isRecord_of_isBodyLine (h.body_lines line hline) hj hobj
  case footer =>
    obtain ⟨j, hj, hname⟩ := hnamed.last
    have hfooter := h.footer
    rw [WireEnv.parseFooter, hj] at hfooter
    exact ⟨j, _, hj, hname, hfooter, fun _ _ => mem_countByName, fun _ _ => mem_countByName, rfl⟩

theorem Container.named (h : Container env first body last) : Named env first body last := by
  obtain ⟨j, header, hj, hname, -⟩ := h.header
  obtain ⟨j', footer, hj', hname', -⟩ := h.footer
  refine ⟨⟨j, hj, hname⟩, fun line hline => ?_, ⟨j', hj', hname'⟩⟩
  obtain ⟨k, hk, ⟨hentity, -⟩ | ⟨hrelationship, -⟩⟩ := h.records line hline
  · exact ⟨k, hk, isObject_of_recordField hentity⟩
  · exact ⟨k, hk, isObject_of_recordField hrelationship⟩

/-! ## Which files are accepted wrongly -/

theorem eq_of_splitLines {last' : Line} (h : splitLines bytes = .ok (first :: (body ++ [last])))
    (h' : splitLines bytes = .ok (lines ++ [last'])) : lines = first :: body ∧ last' = last := by
  have heq : lines ++ [last'] = (first :: body) ++ [last] := Except.ok.inj (h'.symm.trans h)
  obtain ⟨hlines, hlast⟩ := List.append_inj' heq rfl
  exact ⟨hlines, (List.cons.inj hlast).1⟩

theorem digest_of_accepted (h : Accepted env bytes)
    (hsplit : splitLines bytes = .ok (lines ++ [last])) {footer : Footer}
    (hfooter : env.parseFooter last = some footer) : footer.digest = digestOf env lines := by
  obtain ⟨first, body, last', hframed, hreadable⟩ := exists_read_iff.mp h
  obtain ⟨rfl, rfl⟩ := eq_of_splitLines hframed hsplit
  rw [hreadable.footer] at hfooter
  rw [← Option.some.inj hfooter]

theorem lines_eq_of_accepted {bytes other : List UInt8} {lines lines' : List Line}
    {last last' : Line} {footer footer' : Footer} (h : Accepted env bytes)
    (hsplit : splitLines bytes = .ok (lines ++ [last])) (h' : Accepted env other)
    (hsplit' : splitLines other = .ok (lines' ++ [last']))
    (hfooter : env.parseFooter last = some footer) (hfooter' : env.parseFooter last' = some footer')
    (hdigest : footer.digest = footer'.digest)
    (hfree : CollisionFree env (hashed env lines ++ hashed env lines')) : lines = lines' := by
  refine lines_eq_of_digestOf_eq hfree ?_
  rw [← digest_of_accepted h hsplit hfooter, ← digest_of_accepted h' hsplit' hfooter', hdigest]

theorem exists_parseFooter (h : Accepted env bytes)
    (hsplit : splitLines bytes = .ok (lines ++ [last])) :
    ∃ footer, env.parseFooter last = some footer := by
  obtain ⟨first, body, last', hframed, hreadable⟩ := exists_read_iff.mp h
  obtain ⟨-, rfl⟩ := eq_of_splitLines hframed hsplit
  exact ⟨_, hreadable.footer⟩

/-- The reader keeps to the documented container at exactly the files whose lines are named
    right, and at those that it refuses for something else. -/
theorem containerLaw_iff (env : WireEnv) (bytes : List UInt8) :
    ContainerLaw env bytes ↔ ∀ first body last,
      splitLines bytes = .ok (first :: (body ++ [last])) → Readable env first body last →
        Named env first body last := by
  constructor
  · intro hlaw first body last hsplit hreadable
    obtain ⟨first', body', last', hbytes, hlines, hcontainer⟩ :=
      hlaw.documented (exists_read_iff.mpr ⟨first, body, last, hsplit, hreadable⟩)
    have hsplit' : splitLines bytes = .ok (first' :: (body' ++ [last'])) :=
      splitLines_eq_ok_iff.mpr ⟨List.cons_ne_nil _ _, hbytes, hlines⟩
    have hframed : splitLines bytes = .ok ((first' :: body') ++ [last']) := hsplit'
    -- the bytes split in one way only
    obtain ⟨hfront, rfl⟩ := eq_of_splitLines hsplit hframed
    obtain ⟨rfl, rfl⟩ := List.cons.inj hfront
    exact hcontainer.named
  · intro hnamed
    refine ⟨?documented, ?binding, ?sealed⟩
    case documented =>
      intro haccepted
      obtain ⟨first, body, last, hsplit, hreadable⟩ := exists_read_iff.mp haccepted
      obtain ⟨-, hbytes, hlines⟩ := splitLines_eq_ok_iff.mp hsplit
      exact ⟨first, body, last, hbytes, hlines,
        hreadable.container (hnamed first body last hsplit hreadable)⟩
    case binding =>
      intro other lines last lines' last' footer footer' h hsplit h' hsplit' hfooter hfooter'
        hdigest hfree
      exact lines_eq_of_accepted h hsplit h' hsplit' hfooter hfooter' hdigest hfree
    case sealed =>
      intro other lines last lines' h hsplit hsplit' hne hfree h'
      obtain ⟨footer, hfooter⟩ := exists_parseFooter h hsplit
      exact hne (lines_eq_of_accepted h hsplit h' hsplit' hfooter hfooter rfl hfree).symm

/-! ## A file that does not say what it is -/

def unnamedHeader : Line := encodeLine
  "\x7b\"format\":\"portable-dump\",\"format_version\":1,\"generated_at\":0,\"generator\":\"g\"\x7d"

/-- SHA-256 of `unnamedHeader`. -/
def headerHash : List UInt8 :=
  [238, 52, 132, 88, 197, 131, 141, 249, 15, 207, 208, 200, 164, 175, 1, 209, 33, 1, 194, 118,
    140, 252, 65, 194, 192, 119, 139, 25, 32, 31, 165, 117]

/-- SHA-256 of the hex digest of `unnamedHeader`. -/
def foldedHash : List UInt8 :=
  [185, 6, 78, 59, 154, 78, 106, 113, 22, 0, 31, 2, 226, 225, 123, 149, 214, 226, 14, 132, 126,
    212, 65, 187, 168, 6, 192, 174, 165, 14, 39, 183]

def unnamedDigest : String := "sha256:" ++ String.ofList (hexEncode foldedHash)

def unnamedFooter : Line := encodeLine
  ("\x7b\"counts\":\x7b\"entity\":\x7b\x7d,\"relationship\":\x7b\x7d\x7d,\"digest\":\""
    ++ unnamedDigest ++ "\"\x7d")

def unnamedFile : List UInt8 := [unnamedHeader, unnamedFooter].flatMap (· ++ [10])

def unnamedTree (line : Line) : Option Json :=
  if line = unnamedHeader then
    some (.obj [("format", .str "portable-dump"), ("format_version", .int 1),
      ("generated_at", .int 0), ("generator", .str "g")])
  else if line = unnamedFooter then
    some (.obj [("counts", .obj [("entity", .obj []), ("relationship", .obj [])]),
      ("digest", .str unnamedDigest)])
  else none

def unnamedSha (bytes : List UInt8) : List UInt8 :=
  if bytes = unnamedHeader then headerHash
  else if bytes = Utf8.encode (hexEncode headerHash) then foldedHash
  else List.replicate 32 0

theorem unnamedSha_length (bytes : List UInt8) : (unnamedSha bytes).length = 32 := by
  rw [unnamedSha]
  split
  · rfl
  · split
    · rfl
    · rfl

def unnamedEnv : WireEnv := ⟨unnamedTree, unnamedSha, unnamedSha_length⟩

theorem unnamed_splitLines :
    splitLines unnamedFile = .ok (unnamedHeader :: ([] ++ [unnamedFooter])) := by
  decide +kernel

theorem unnamed_readable : Readable unnamedEnv unnamedHeader [] unnamedFooter := by
  refine ⟨?header, ?footer, ?bodyLines, ?entities, ?resolves⟩
  case header => exact ⟨⟨FORMAT, FORMAT_VERSION⟩, by decide +kernel, rfl, rfl⟩
  case footer => decide +kernel
  case bodyLines => exact fun line hline => absurd hline List.not_mem_nil
  case entities => exact ⟨List.nodup_nil, by simp [entitiesOf], List.nodup_nil, List.nodup_nil⟩
  case resolves => exact ⟨[], rfl⟩

/-- A header and a footer that do not name themselves are accepted. -/
theorem not_containerLaw_of_unnamed : ¬ ContainerLaw unnamedEnv unnamedFile := by
  intro h
  obtain ⟨first, body, last, hbytes, hlines, hcontainer⟩ := h.documented
    (exists_read_iff.mpr ⟨_, _, _, unnamed_splitLines, unnamed_readable⟩)
  have hsplit : splitLines unnamedFile = .ok ((first :: body) ++ [last]) :=
    splitLines_eq_ok_iff.mpr ⟨List.cons_ne_nil _ _, hbytes, hlines⟩
  obtain ⟨hfront, -⟩ := eq_of_splitLines unnamed_splitLines hsplit
  obtain ⟨rfl, rfl⟩ := List.cons.inj hfront
  obtain ⟨j, header, hj, hname, -⟩ := hcontainer.header
  have htree : unnamedEnv.tree unnamedHeader
      = some (.obj [("format", .str "portable-dump"), ("format_version", .int 1),
        ("generated_at", .int 0), ("generator", .str "g")]) := by
    show unnamedTree unnamedHeader = _
    rw [unnamedTree, if_pos rfl]
  rw [← Option.some.inj (htree.symm.trans hj)] at hname
  exact absurd hname (by simp [recordField])

end Bytes
end PortableDump
end Inkentry
