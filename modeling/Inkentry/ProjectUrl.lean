/-
  Inkentry.ProjectUrl

  A project id in the URL of a request: the client encodes it into one segment
  of the path, a WHATWG parser reads the URL, and the router captures the
  segment and decodes it.

  The escape set holds neither the backslash, which the parser reads as a
  slash, nor the dots, which make a dot segment of an id that is nothing else.
  Every other id comes back as it was (`roundTrips_iff`).
-/

import Mathlib.Data.Bool.AllAny
import Inkentry.Lib.TextLines
import Inkentry.Lib.WhatwgPath
import Inkentry.Transport

namespace Inkentry
namespace ProjectUrl

open Ip Whatwg Transport

/-! ## The client -/

/-- The characters that are encoded: controls, the marks of the set, and what is not ASCII. -/
def PROJECT_ID_SEGMENT (c : Char) : Bool :=
  c.toNat ≤ 0x1F || c.toNat ≥ 0x7F || " \"#<>?`\x7b\x7d/%".toList.contains c

def encodeProjectId (projectId : List Char) : List Char := percentEncode PROJECT_ID_SEGMENT projectId

/-- The routes that a project id is sent to. -/
inductive Route where
  | llm
  | embed
  | search
  deriving DecidableEq

/-- What follows the project id in a route. -/
def Route.segments : Route → List (List Char)
  | .llm => ["llm".toList, "complete".toList]
  | .embed => ["index".toList, "embed".toList]
  | .search => ["search".toList]

def llmUrl (baseUrl projectId : List Char) : List Char :=
  baseUrl ++ "/v1/projects/".toList ++ encodeProjectId projectId ++ "/llm/complete".toList

def embedUrl (baseUrl projectId : List Char) : List Char :=
  baseUrl ++ "/v1/projects/".toList ++ encodeProjectId projectId ++ "/index/embed".toList

def searchUrl (baseUrl projectId : List Char) : List Char :=
  baseUrl ++ "/v1/projects/".toList ++ encodeProjectId projectId ++ "/search".toList

def Route.url : Route → List Char → List Char → List Char
  | .llm => llmUrl
  | .embed => embedUrl
  | .search => searchUrl

/-! ## The server -/

def MAX_SLUG_LEN : ℕ := 200

def validateProjectSlug (slug : List Char) : Except String Unit :=
  if slug = [] then .error "project_id must not be empty"
  else if (Utf8.encode slug).length > MAX_SLUG_LEN then
    .error ("project_id exceeds maximum length of " ++ toString MAX_SLUG_LEN ++ " bytes (got "
      ++ toString (Utf8.encode slug).length ++ ")")
  else .ok ()

/-- The text of a captured segment, where its bytes encode one. -/
def decodeSegment (segment : List Char) : Option (List Char) :=
  let bytes := percentDecode segment
  if Utf8.encode (Utf8.lossy bytes) = bytes then some (Utf8.lossy bytes) else none

/-- The project id that a route captures, from the segments of a path. -/
def Route.capture (route : Route) (path : List (List Char)) : Option (List Char) :=
  match path with
  | v1 :: projects :: captured :: rest =>
    if v1 = "v1".toList ∧ projects = "projects".toList ∧ captured ≠ [] ∧ rest = route.segments then
      decodeSegment captured
    else none
  | _ => none

/-! ## The law -/

/-- A base URL, as the server it names sees it: the URL of the base with a slash behind it. -/
def baseOf (codec : Codec) (baseUrl : List Char) : Option Url := parse codec (baseUrl ++ "/".toList)

/-- The request URL names the server of the base, and the route under the path of the base captures
the same id. -/
def RoundTrips (codec : Codec) (route : Route) (baseUrl projectId : List Char) : Prop :=
  ∃ base url path, baseOf codec baseUrl = some base ∧ parse codec (route.url baseUrl projectId) = some url
    ∧ url.scheme = base.scheme ∧ url.host = base.host ∧ url.port = base.port
    ∧ url.queryAndFragment = [] ∧ url.path = base.path.dropLast ++ path
    ∧ route.capture path = some projectId

/-- The base is a URL that ends in a path, without a query and a fragment. -/
def IsPlainBase (codec : Codec) (baseUrl : List Char) : Prop :=
  ∃ base, baseOf codec baseUrl = some base ∧ base.queryAndFragment = []

/-- An id without a backslash that is not a dot segment. -/
def IsPlainId (projectId : List Char) : Prop :=
  '\\' ∉ projectId ∧ projectId ≠ ".".toList ∧ projectId ≠ "..".toList

/-! ## The segments of a request -/

section Segments

variable {projectId segment : List Char} {path : List (List Char)} {c : Char}

theorem encoded_char (h : c ∈ encodeProjectId projectId) :
    isControlOrSpace c = false ∧ isPathChar c = true ∧ c ≠ '/' := by
  obtain ⟨d, -, hc⟩ := List.mem_flatMap.mp h
  split at hc
  case isTrue =>
    obtain ⟨b, -, hb⟩ := List.mem_flatMap.mp hc
    exact of_mem_encodeByte
      (p := fun c => isControlOrSpace c = false ∧ isPathChar c = true ∧ c ≠ '/')
      (by decide) (by decide) hb
  case isFalse hkept =>
    obtain rfl := List.mem_singleton.mp hc
    have hne : ∀ d, PROJECT_ID_SEGMENT d = true → c ≠ d := fun d hd heq => hkept (heq ▸ hd)
    refine ⟨?_, ?_, hne '/' (by decide)⟩
    · have hspace := hne ' ' (by decide)
      by_contra hcontrol
      have hle : c.toNat ≤ 0x20 := by simpa [isControlOrSpace] using hcontrol
      have hlow : ¬ c.toNat ≤ 0x1F := fun hlow => hkept (by simp [PROJECT_ID_SEGMENT, hlow])
      exact hspace (Char.toNat_inj.mp (by rw [show ' '.toNat = 0x20 from rfl]; omega))
    · simp [isPathChar, hne '?' (by decide), hne '#' (by decide)]

theorem splitOnP_encodeProjectId (projectId : List Char) : (encodeProjectId projectId).splitOnP isSlash
    = (projectId.splitOn '\\').map encodeProjectId := by
  induction projectId with
  | nil => rfl
  | cons c projectId ih =>
    have hencode : encodeProjectId (c :: projectId) = encodeProjectId [c] ++ encodeProjectId projectId :=
      percentEncode_cons _ c projectId
    rw [hencode, List.splitOn_cons_eq_if_modifyHead]
    -- a backslash is not encoded, and the parser splits at it; nothing else is a slash
    by_cases hc : c = '\\'
    · subst hc
      show ([] ++ '\\' :: encodeProjectId projectId).splitOnP isSlash = _
      rw [List.splitOnP_append_cons _ _ (by decide), ih, if_pos (by decide)]
      rfl
    · have hkept : ∀ d ∈ encodeProjectId [c], isSlash d = false := by
        intro d hd
        have hslash := (encoded_char hd).2.2
        have hback : d ≠ '\\' := by
          rintro rfl
          rw [encodeProjectId, percentEncode, List.flatMap_cons, List.flatMap_nil, List.append_nil] at hd
          split at hd
          case isTrue =>
            obtain ⟨b, -, hb⟩ := List.mem_flatMap.mp hd
            exact of_mem_encodeByte (p := (· ≠ '\\')) (by decide) (by decide) hb rfl
          case isFalse => exact hc (List.mem_singleton.mp hd).symm
        simp [isSlash, hslash, hback]
      rw [splitOnP_append _ hkept, ih, if_neg (by simpa using hc)]
      cases hsplit : projectId.splitOn '\\' with
      | nil => exact absurd hsplit (List.splitOn_ne_nil _ _)
      | cons piece pieces =>
        show (encodeProjectId [c] ++ encodeProjectId piece) :: _ = encodeProjectId (c :: piece) :: _
        exact congrArg (· :: _) (percentEncode_cons _ c piece).symm

theorem pushSegment_of_plain (hdouble : isDoubleDot segment = false) (hsingle : isSingleDot segment = false)
    (path : List (List Char)) :
    pushSegment path segment = path ++ [percentEncode inPathSet segment] := by
  rw [pushSegment, hdouble, hsingle, if_neg (by decide), if_neg (by decide)]

theorem percentDecode_encodeProjectId (projectId : List Char) :
    percentDecode (encodeProjectId projectId) = Utf8.encode projectId :=
  percentDecode_percentEncode_self (by decide) projectId

theorem dots_encodeProjectId (projectId : List Char) :
    (isSingleDot (encodeProjectId projectId) = true → projectId = ".".toList)
      ∧ (isDoubleDot (encodeProjectId projectId) = true → projectId = "..".toList) := by
  constructor
  · intro h
    have hdecode := percentDecode_of_isSingleDot h
    rw [percentDecode_encodeProjectId] at hdecode
    exact Utf8.encode_inj (hdecode.trans (by rfl))
  · intro h
    have hdecode := percentDecode_of_isDoubleDot h
    rw [percentDecode_encodeProjectId] at hdecode
    exact Utf8.encode_inj (hdecode.trans (by rfl))

/-- Segments that are pushed leave a front of the path and put encoded segments behind it, or take as
many away. -/
theorem exists_of_foldl_pushSegment (segments : List (List Char)) (path : List (List Char)) :
    ∃ front new, segments.foldl pushSegment path = front ++ new ∧ front <+: path
      ∧ ∀ x ∈ new, ∃ segment ∈ segments, isSingleDot segment = false ∧ isDoubleDot segment = false
        ∧ x = percentEncode inPathSet segment := by
  induction segments using List.reverseRecOn with
  | nil => exact ⟨path, [], (List.append_nil path).symm, List.prefix_rfl, fun x hx => by cases hx⟩
  | append_singleton segments segment ih =>
    obtain ⟨front, new, hfold, hfront, hnew⟩ := ih
    have hmore : ∀ x ∈ new, ∃ s ∈ segments ++ [segment], isSingleDot s = false ∧ isDoubleDot s = false
        ∧ x = percentEncode inPathSet s := by
      intro x hx
      obtain ⟨s, hs, h⟩ := hnew x hx
      exact ⟨s, List.mem_append_left _ hs, h⟩
    rw [List.foldl_append, List.foldl_cons, List.foldl_nil, hfold, pushSegment]
    split
    case isTrue =>
      -- `..` takes a pushed segment off, or one of the path before
      cases new using List.reverseRecOn with
      | nil =>
        refine ⟨front.dropLast, [], ?_, (List.dropLast_prefix _).trans hfront, fun x hx => by cases hx⟩
        rw [List.append_nil, List.append_nil]
      | append_singleton new x _ =>
        refine ⟨front, new, ?_, hfront, fun y hy => hmore y (List.mem_append_left _ hy)⟩
        rw [← List.append_assoc, List.dropLast_concat]
    case isFalse hdouble =>
      split
      case isTrue => exact ⟨front, new, rfl, hfront, hmore⟩
      case isFalse hsingle =>
        refine ⟨front, new ++ [percentEncode inPathSet segment], by rw [List.append_assoc], hfront,
          fun x hx => ?_⟩
        rcases List.mem_append.mp hx with hx | hx
        · exact hmore x hx
        · exact ⟨segment, by simp, eq_false_of_ne_true hsingle, eq_false_of_ne_true hdouble,
            List.mem_singleton.mp hx⟩

end Segments

/-! ## The request -/

section Request

variable {codec : Codec} {route : Route} {baseUrl projectId : List Char}

/-- What follows the slash behind the base. -/
def requestText (route : Route) (projectId : List Char) : List Char :=
  "v1/projects/".toList ++ (encodeProjectId projectId ++ '/' :: "/".toList.intercalate route.segments)

theorem url_eq (route : Route) (baseUrl projectId : List Char) :
    route.url baseUrl projectId = baseUrl ++ '/' :: requestText route projectId := by
  have hparts : ∀ {slug slug' suffix suffix' : List Char}, slug = '/' :: slug' → suffix = '/' :: suffix' →
      baseUrl ++ slug ++ encodeProjectId projectId ++ suffix
        = baseUrl ++ '/' :: (slug' ++ (encodeProjectId projectId ++ '/' :: suffix')) := by
    rintro slug slug' suffix suffix' rfl rfl
    rw [List.append_assoc, List.append_assoc, List.cons_append]
  cases route with
  | llm => exact hparts (by rfl) (by rfl)
  | embed => exact hparts (by rfl) (by rfl)
  | search => exact hparts (by rfl) (by rfl)

theorem isPathText_requestText (route : Route) (projectId : List Char) :
    IsPathText (requestText route projectId) := by
  have hfront : ∀ c ∈ "v1/projects/".toList, isControlOrSpace c = false ∧ isPathChar c = true :=
    List.all_iff_forall_prop.mp (by decide)
  have hback : ∀ c ∈ '/' :: "/".toList.intercalate route.segments,
      isControlOrSpace c = false ∧ isPathChar c = true := by
    cases route <;> exact List.all_iff_forall_prop.mp (by decide)
  intro c hc
  rcases List.mem_append.mp hc with hc | hc
  · exact hfront c hc
  · rcases List.mem_append.mp hc with hc | hc
    · exact ⟨(encoded_char hc).1, (encoded_char hc).2.1⟩
    · exact hback c hc

theorem splitOnP_requestText (route : Route) (projectId : List Char) :
    (requestText route projectId).splitOnP isSlash = ["v1".toList, "projects".toList]
      ++ (projectId.splitOn '\\').map encodeProjectId ++ route.segments := by
  have hback : ("/".toList.intercalate route.segments).splitOnP isSlash = route.segments := by
    cases route <;> decide
  have hslashes : ∀ {slug v1 projects : List Char} (text : List Char),
      slug = v1 ++ '/' :: (projects ++ ['/']) → slug ++ text = v1 ++ '/' :: (projects ++ '/' :: text) := by
    rintro slug v1 projects text rfl
    rw [List.append_assoc, List.cons_append, List.append_assoc, List.singleton_append]
  have hfront : requestText route projectId = "v1".toList ++ '/' :: ("projects".toList
      ++ '/' :: (encodeProjectId projectId ++ '/' :: "/".toList.intercalate route.segments)) :=
    hslashes _ (by rfl)
  rw [hfront, List.splitOnP_append_cons _ _ (by decide), List.splitOnP_append_cons _ _ (by decide),
    List.splitOnP_append_cons _ _ (by decide), splitOnP_encodeProjectId, hback]
  rfl

/-- The path of a request: the encoded pieces of the id between the segments of the route. -/
theorem pathParser_request {text : List Char} (htext : ∀ c ∈ text.head?, isSlash c = true) :
    pathParser (text ++ '/' :: requestText route projectId)
      = ((projectId.splitOn '\\').map encodeProjectId).foldl pushSegment
          (pathBefore text ++ ["v1".toList, "projects".toList]) ++ route.segments := by
  -- the segments of the route are plain, and so are pushed as they are
  have hplain : ∀ (path : List (List Char)) (segment : List Char), isDoubleDot segment = false →
      isSingleDot segment = false → (segment.all fun c => inPathSet c = false) = true →
      pushSegment path segment = path ++ [segment] := by
    intro path segment hdouble hsingle hset
    rw [pushSegment_of_plain hdouble hsingle,
      percentEncode_eq_self (List.all_iff_forall_prop.mp hset)]
  rw [pathParser_append htext, splitOnP_requestText]
  set es := (projectId.splitOn '\\').map encodeProjectId
  have hv1 : pushSegment (pushSegment (pathBefore text) "v1".toList) "projects".toList
      = pathBefore text ++ ["v1".toList, "projects".toList] := by
    rw [hplain _ _ (by decide) (by decide) (by decide), hplain _ _ (by decide) (by decide) (by decide),
      List.append_assoc]
    rfl
  have hne : route.segments ≠ [] := by cases route <;> decide
  rw [List.dropLast_append_of_ne_nil hne, List.getLast?_append_of_ne_nil _ hne, List.foldl_append,
    List.foldl_append, List.foldl_cons, List.foldl_cons, List.foldl_nil, hv1]
  generalize es.foldl pushSegment _ = path
  cases route with
  | llm =>
    show pushLast (pushSegment path "llm".toList) "complete".toList = path ++ ["llm".toList, "complete".toList]
    rw [hplain _ _ (by decide) (by decide) (by decide)]
    show (path ++ ["llm".toList]) ++ ["complete".toList] = _
    rw [List.append_assoc]
    rfl
  | embed =>
    show pushLast (pushSegment path "index".toList) "embed".toList = path ++ ["index".toList, "embed".toList]
    rw [hplain _ _ (by decide) (by decide) (by decide)]
    show (path ++ ["index".toList]) ++ ["embed".toList] = _
    rw [List.append_assoc]
    rfl
  | search => rfl

/-- A captured id stands in the segment between the project route and the rest. -/
theorem capture_eq_some_iff {path : List (List Char)} : route.capture path = some projectId
    ↔ ∃ segment, segment ≠ [] ∧ path = ["v1".toList, "projects".toList, segment] ++ route.segments
      ∧ decodeSegment segment = some projectId := by
  rw [Route.capture.eq_def]
  split
  case h_1 v1 projects segment rest =>
    split
    case isTrue h =>
      obtain ⟨rfl, rfl, hne, rfl⟩ := h
      constructor
      · exact fun hdecode => ⟨segment, hne, rfl, hdecode⟩
      · rintro ⟨segment', -, hpath, hdecode⟩
        simp only [List.cons_append, List.nil_append, List.cons.injEq, true_and, and_true] at hpath
        exact hpath ▸ hdecode
    case isFalse h =>
      refine ⟨nofun, ?_⟩
      rintro ⟨segment', hne, hpath, -⟩
      simp only [List.cons_append, List.nil_append, List.cons.injEq] at hpath
      obtain ⟨rfl, rfl, rfl, rfl⟩ := hpath
      exact absurd ⟨rfl, rfl, hne, rfl⟩ h
  case h_2 hshort =>
    refine ⟨nofun, ?_⟩
    rintro ⟨segment, -, rfl, -⟩
    exact absurd rfl (hshort _ _ _ _)

theorem decodeSegment_of_encode {segment : List Char}
    (h : percentDecode segment = Utf8.encode projectId) : decodeSegment segment = some projectId := by
  rw [decodeSegment, h, Utf8.lossy_encode, if_pos rfl]

theorem encode_of_decodeSegment {segment : List Char} (h : decodeSegment segment = some projectId) :
    percentDecode segment = Utf8.encode projectId := by
  rw [decodeSegment] at h
  split at h
  case isTrue hvalid => rw [← hvalid, Option.some.inj h]
  case isFalse => cases h

/-- Pushing the pieces of an id leaves it in one segment exactly when it is a plain id. -/
theorem foldl_pieces_iff (hid : projectId ≠ []) (path : List (List Char)) :
    (∃ segment, segment ≠ [] ∧ decodeSegment segment = some projectId
      ∧ ((projectId.splitOn '\\').map encodeProjectId).foldl pushSegment
          (path ++ ["v1".toList, "projects".toList])
        = path ++ ["v1".toList, "projects".toList, segment])
      ↔ IsPlainId projectId := by
  constructor
  · rintro ⟨segment, -, hdecode, hfold⟩
    obtain ⟨front, new, hsplit, hfront, hnew⟩ := exists_of_foldl_pushSegment
      ((projectId.splitOn '\\').map encodeProjectId) (path ++ ["v1".toList, "projects".toList])
    rw [hfold] at hsplit
    have hlen := congrArg List.length hsplit
    have hle := hfront.length_le
    simp only [List.length_append, List.length_cons, List.length_nil] at hlen hle
    -- the last segment was pushed, so it is a piece of the id, and all of it
    have hmem : segment ∈ new := by
      have hlast := congrArg List.getLast? hsplit
      have hnewne : new ≠ [] := by
        rintro rfl
        rw [List.length_nil] at hlen
        omega
      rw [List.getLast?_append_of_ne_nil _ (by simp), List.getLast?_append_of_ne_nil _ hnewne] at hlast
      exact List.mem_of_getLast? hlast.symm
    obtain ⟨encoded, hencoded, hsingle, hdouble, rfl⟩ := hnew segment hmem
    obtain ⟨piece, hpiece, rfl⟩ := List.mem_map.mp hencoded
    have hbytes := encode_of_decodeSegment hdecode
    rw [encodeProjectId, percentDecode_percentEncode (by decide)] at hbytes
    obtain rfl := Utf8.encode_inj hbytes
    refine ⟨fun hback => ?_, ?_, ?_⟩
    · exact TextLines.not_mem_of_mem_splitOn hpiece hback
    · rintro rfl
      exact absurd hsingle (by decide)
    · rintro rfl
      exact absurd hdouble (by decide)
  · rintro ⟨hback, hdot, hdots⟩
    have hbytes : percentDecode (percentEncode inPathSet (encodeProjectId projectId))
        = Utf8.encode projectId := percentDecode_percentEncode (by decide) projectId
    refine ⟨percentEncode inPathSet (encodeProjectId projectId), fun hnil => ?_,
      decodeSegment_of_encode hbytes, ?_⟩
    · rw [hnil] at hbytes
      have hnil' : Utf8.encode projectId = Utf8.encode [] := hbytes.symm
      exact hid (Utf8.encode_inj hnil')
    · have hsingle : isSingleDot (encodeProjectId projectId) = false :=
        eq_false_of_ne_true fun h => hdot ((dots_encodeProjectId projectId).1 h)
      have hdouble : isDoubleDot (encodeProjectId projectId) = false :=
        eq_false_of_ne_true fun h => hdots ((dots_encodeProjectId projectId).2 h)
      rw [List.splitOn_eq_singleton hback, List.map_cons, List.map_nil, List.foldl_cons, List.foldl_nil,
        pushSegment_of_plain hdouble hsingle, List.append_assoc]
      rfl

end Request

/-! ## The law holds -/

section Law

variable {codec : Codec} {debug : List Char → String} {route : Route} {baseUrl projectId : List Char}

/-- An accepted base is no URL with a slash behind it, or it has a host whatever path text follows. -/
theorem exists_parts_of_accepted (codec : Codec) (haccepted : validateTransportUrl debug baseUrl = .ok ()) :
    baseOf codec baseUrl = none ∨ ∃ scheme host port text,
      (∀ c ∈ text.head?, isSlash c = true ∨ isPathChar c = false)
      ∧ ∀ more, IsPathText more → parse codec (baseUrl ++ '/' :: more) = some
        { scheme := scheme
          host := host
          port := port
          path := pathParser ((text ++ '/' :: more).takeWhile isPathChar)
          queryAndFragment := (text ++ '/' :: more).dropWhile isPathChar } := by
  have hparse : ∀ {front scheme : List Char} {default : ℕ} {rest : List Char},
      (∀ text, parse codec (front ++ text)
        = parseSpecial codec scheme default ("//".toList ++ cleanedBack text)) →
      baseUrl = front ++ rest → ∀ more, IsPathText more → parse codec (baseUrl ++ '/' :: more)
        = parseSpecial codec scheme default
            ("//".toList ++ (rest.filter (!isTabOrNewline ·) ++ '/' :: more)) := by
    intro front scheme default rest hfront hbase more hmore
    rw [hbase, List.append_assoc, hfront, cleanedBack_append rest hmore]
  have hnone : IsPathText [] := fun c hc => by cases hc
  rcases validateTransportUrl_eq_ok haccepted with ⟨rest, hrest⟩ | ⟨rest, hrest, -⟩
  · have heq := hparse (parse_https codec) hrest
    refine (exists_parts codec "https".toList 443 (rest.filter (!isTabOrNewline ·))).imp
      (fun h => (heq [] hnone).trans h) ?_
    rintro ⟨host, port, text, htext, hmore⟩
    exact ⟨_, host, port, text, htext, fun more hpath => (heq more hpath).trans (hmore more)⟩
  · have heq := hparse (parse_http codec) hrest
    refine (exists_parts codec "http".toList 80 (rest.filter (!isTabOrNewline ·))).imp
      (fun h => (heq [] hnone).trans h) ?_
    rintro ⟨host, port, text, htext, hmore⟩
    exact ⟨_, host, port, text, htext, fun more hpath => (heq more hpath).trans (hmore more)⟩

theorem takeWhile_isPathChar {text more : List Char} (htext : ∀ c ∈ text, isPathChar c = true)
    (hmore : IsPathText more) : (text ++ '/' :: more).takeWhile isPathChar = text ++ '/' :: more
      ∧ (text ++ '/' :: more).dropWhile isPathChar = [] := by
  have hall : ∀ c ∈ text ++ '/' :: more, isPathChar c = true := by
    intro c hc
    rcases List.mem_append.mp hc with hc | hc
    · exact htext c hc
    · rcases List.mem_cons.mp hc with rfl | hc
      · decide
      · exact (hmore c hc).2
  exact ⟨List.takeWhile_eq_self_iff.mpr hall, List.dropWhile_eq_nil_iff.mpr hall⟩

end Law

/-- An id comes back from the URL of a request exactly when the base is a URL without query and
fragment and the id has no backslash and is not a dot segment. -/
theorem roundTrips_iff (codec : Codec) (debug : List Char → String) (route : Route)
    (baseUrl projectId : List Char) (hbase : validateTransportUrl debug baseUrl = .ok ())
    (hid : validateProjectSlug projectId = .ok ()) :
    RoundTrips codec route baseUrl projectId ↔ IsPlainBase codec baseUrl ∧ IsPlainId projectId := by
  have hidne : projectId ≠ [] := by
    rintro rfl
    cases hid
  have hnil : IsPathText [] := fun c hc => by cases hc
  have hrequest := isPathText_requestText route projectId
  rcases exists_parts_of_accepted codec hbase with hnone | ⟨scheme, host, port, text, hhead, hparse⟩
  · constructor
    · rintro ⟨base, _, _, hb, -⟩
      exact absurd hb (by rw [hnone]; exact nofun)
    · rintro ⟨⟨base, hb, -⟩, -⟩
      exact absurd hb (by rw [hnone]; exact nofun)
  have hb : baseOf codec baseUrl = some _ := hparse [] hnil
  have hu := hparse _ hrequest
  rw [← url_eq route baseUrl projectId] at hu
  by_cases htext : ∀ c ∈ text, isPathChar c = true
  · have hslash : ∀ c ∈ text.head?, isSlash c = true := fun c hc =>
      (hhead c hc).resolve_right (by rw [htext c (List.mem_of_mem_head? hc)]; decide)
    rw [(takeWhile_isPathChar htext hnil).1, (takeWhile_isPathChar htext hnil).2] at hb
    rw [(takeWhile_isPathChar htext hrequest).1, (takeWhile_isPathChar htext hrequest).2,
      pathParser_request hslash] at hu
    have hplain : IsPlainBase codec baseUrl := ⟨_, hb, rfl⟩
    have hbefore : (pathParser (text ++ ['/'])).dropLast = pathBefore text := by
      rw [pathParser_append hslash]
      show (pushLast (pathBefore text) []).dropLast = _
      exact List.dropLast_concat
    rw [and_iff_right hplain, ← foldl_pieces_iff hidne (pathBefore text)]
    constructor
    · rintro ⟨base, url, path, hbase', hurl, -, -, -, -, hpath, hcapture⟩
      obtain rfl := Option.some.inj (hb.symm.trans hbase')
      obtain rfl := Option.some.inj (hu.symm.trans hurl)
      obtain ⟨segment, hne, rfl, hdecode⟩ := capture_eq_some_iff.mp hcapture
      refine ⟨segment, hne, hdecode, ?_⟩
      rw [hbefore, ← List.append_assoc] at hpath
      exact List.append_cancel_right hpath
    · rintro ⟨segment, hne, hdecode, hfold⟩
      refine ⟨_, _, _, hb, hu, rfl, rfl, rfl, rfl, ?_, capture_eq_some_iff.mpr ⟨segment, hne, rfl, hdecode⟩⟩
      rw [hbefore, hfold, List.append_assoc]
  · -- a query or a fragment in the base takes the rest of the URL in
    have hquery : ∀ more, (text ++ '/' :: more).dropWhile isPathChar ≠ [] := by
      intro more hempty
      exact htext fun c hc => List.dropWhile_eq_nil_iff.mp hempty c (List.mem_append_left _ hc)
    constructor
    · rintro ⟨base, url, path, -, hurl, -, -, -, hempty, -⟩
      obtain rfl := Option.some.inj (hu.symm.trans hurl)
      exact absurd hempty (hquery _)
    · rintro ⟨⟨base, hbase', hempty⟩, -⟩
      obtain rfl := Option.some.inj (hb.symm.trans hbase')
      exact absurd hempty (hquery _)

/-- A codec that passes every name on. -/
def plainCodec : Codec := ⟨id, some⟩

theorem roundTrips_slug : RoundTrips plainCodec .llm "https://host".toList "github.com/owner/repo".toList
    ↔ IsPlainBase plainCodec "https://host".toList ∧ IsPlainId "github.com/owner/repo".toList :=
  roundTrips_iff plainCodec String.ofList .llm _ _ rfl rfl

theorem not_roundTrips_of_backslash :
    ¬ RoundTrips plainCodec .search "https://host".toList "owner\\repo".toList := by
  rintro ⟨base, url, path, hbase, hurl, -, -, -, -, hpath, hcapture⟩
  have hroot : (baseOf plainCodec "https://host".toList).map Url.path = some [[]] := by decide +kernel
  have hparts : (parse plainCodec (searchUrl "https://host".toList "owner\\repo".toList)).map Url.path
      = some ["v1".toList, "projects".toList, "owner".toList, "repo".toList, "search".toList] := by
    decide +kernel
  rw [hbase] at hroot
  rw [show parse plainCodec (searchUrl _ _) = some url from hurl] at hparts
  rw [Option.some.inj hroot, Option.some.inj hparts] at hpath
  rw [← show _ = path from hpath] at hcapture
  exact absurd hcapture (by decide)

end ProjectUrl
end Inkentry
