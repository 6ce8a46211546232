/-
  Inkentry.ProjectId

  The project id that a git remote gives: `extract_origin_url_from_git_config`
  and `normalise_git_url`.

  Scheme, user, port and the colon of an scp-style URL are taken off by a search
  for the first `://`, `@` and `:` of the text.  A spelling is read as it is
  meant exactly when no such character of another part comes first and it has
  no port and no slash at its end (`normalise_eq_iff`); what tells the others
  apart is the marks `/`, `:` and `@` of what is left (`marks_read`).
-/

import Mathlib.Data.Bool.AllAny
import Inkentry.Lib.FirstCut
import Inkentry.Lib.Lowercase
import Inkentry.Lib.TextLines

namespace Inkentry
namespace ProjectId

open FirstCut Lowercase TextLines

abbrev Text := List Char

/-! ## The code -/

def SCHEME_END : Text := [':', '/', '/']

def DOT_GIT : Text := ['.', 'g', 'i', 't']

/-- What follows a prefix. -/
def stripPrefix (pre text : Text) : Option Text :=
  if pre <+: text then some (text.drop pre.length) else none

def trimStart (text : Text) : Text := text.dropWhile isWhitespace

/-- `trim_start_matches('[').trim_end_matches(']')`. -/
def unbracketed (text : Text) : Text := (text.dropWhile (· == '[')).rdropWhile (· == ']')

/-- The value of a line `url = ..`. -/
def urlValue (trimmed : Text) : Option Text :=
  (stripPrefix ['u', 'r', 'l'] trimmed).bind fun rest =>
    (stripPrefix ['='] (trimStart rest)).map trim

/-- `remote "origin"`. -/
def originHeader : Text :=
  ['r', 'e', 'm', 'o', 't', 'e', ' ', '"', 'o', 'r', 'i', 'g', 'i', 'n', '"']

/-- The lines of a config, read inside the section of the origin or outside of it. -/
def scanConfig : Bool → List Text → Option Text
  | _, [] => none
  | inOrigin, line :: rest =>
    if (trim line).head? = some '[' then
      scanConfig (trim (unbracketed (trim line)) = originHeader) rest
    else if inOrigin then (urlValue (trim line)).or (scanConfig inOrigin rest)
    else scanConfig inOrigin rest

def extractOriginUrlFromGitConfig (config : Text) : Option Text := scanConfig false (lines config)

def withoutScheme (url : Text) : Text := (after? SCHEME_END url).getD url

def withoutUser (url : Text) : Text := (after? ['@'] url).getD url

/-- What `normalise_git_url` leaves of a URL, before its case. -/
def read (url : Text) : Text :=
  stripSuffix DOT_GIT (replaceFirst ':' '/' (withoutUser (withoutScheme url)))

def normaliseGitUrl (T : CaseTable) (url : Text) : Text := T.toLowercase (read url)

/-- The id of a project whose git config has an origin. -/
def idOfConfig (T : CaseTable) (config : Text) : Option Text :=
  (extractOriginUrlFromGitConfig config).map (normaliseGitUrl T)

/-! ### The line that is read -/

/-- A line that does not open the section of the origin. -/
def NotOrigin (line : Text) : Prop :=
  (trim line).head? = some '[' → trim (unbracketed (trim line)) ≠ originHeader

/-- The first URL of the section of the origin is read, whatever comes before the section. -/
theorem scanConfig_origin {before rest : List Text} {header line value : Text}
    (hbefore : ∀ l ∈ before, NotOrigin l) (hheader : (trim header).head? = some '[')
    (horigin : trim (unbracketed (trim header)) = originHeader)
    (hline : (trim line).head? ≠ some '[') (hvalue : urlValue (trim line) = some value) :
    scanConfig false (before ++ header :: line :: rest) = some value := by
  induction before with
  | nil =>
    rw [List.nil_append, scanConfig, if_pos hheader, horigin, scanConfig, if_neg hline, hvalue]
    rfl
  | cons l before ih =>
    have ih := ih fun l' hl' => hbefore l' (List.mem_cons_of_mem l hl')
    rw [List.cons_append, scanConfig]
    split
    case isTrue hl =>
      rw [decide_eq_false (hbefore l List.mem_cons_self hl)]
      exact ih
    case isFalse => exact ih

theorem urlValue_of_written (value : Text) :
    urlValue (['u', 'r', 'l', ' ', '='] ++ value) = some (trim value) := by
  have hurl : stripPrefix ['u', 'r', 'l'] (['u', 'r', 'l', ' ', '='] ++ value) = some (' ' :: '=' :: value) :=
    if_pos ⟨' ' :: '=' :: value, rfl⟩
  have hequals : stripPrefix ['='] (trimStart (' ' :: '=' :: value)) = some value := by
    rw [trimStart, List.dropWhile_cons_of_pos (by decide), List.dropWhile_cons_of_neg (by decide)]
    exact if_pos ⟨value, rfl⟩
  rw [urlValue, hurl, Option.bind_some, hequals, Option.map_some]

/-- The id of a project is that of the URL of its origin. -/
theorem idOfConfig_of_origin (T : CaseTable) {config header line value : Text} {before rest : List Text}
    (hlines : lines config = before ++ header :: line :: rest) (hbefore : ∀ l ∈ before, NotOrigin l)
    (hheader : (trim header).head? = some '[')
    (horigin : trim (unbracketed (trim header)) = originHeader)
    (hline : trim line = ['u', 'r', 'l', ' ', '='] ++ value) :
    idOfConfig T config = some (normaliseGitUrl T (trim value)) := by
  rw [idOfConfig, extractOriginUrlFromGitConfig, hlines,
    scanConfig_origin hbefore hheader horigin (by rw [hline]; simp)
      ((congrArg urlValue hline).trans (urlValue_of_written value)), Option.map_some]

/-! ## Remotes and their spellings -/

/-- Text without the slash and the `@` that end an authority or a user. -/
structure Name where
  text : Text
  plain : ∀ c ∈ text, c ≠ '/' ∧ c ≠ '@'

/-- A port number, in digits. -/
structure Port where
  digits : Text
  isDigit : ∀ c ∈ digits, c.isDigit = true

/-- A repository on a host.  Its path neither begins nor ends in a slash and has no `.git` at its
end; what is in between is free. -/
structure Remote where
  host : Name
  port : Option Port
  path : Text
  path_ne : path ≠ []
  path_start : path.head? ≠ some '/'
  path_end : path.getLast? ≠ some '/'
  path_git : ¬ DOT_GIT <:+ path

inductive Form where
  | https
  | ssh
  | scp
  deriving DecidableEq

/-- How a remote is spelled. -/
structure Spelling where
  form : Form
  user : Option Name
  dotGit : Bool
  slash : Bool

/-- The user with its `@`. -/
def userText (user : Option Name) : Text := (user.map fun u => u.text ++ ['@']).getD []

/-- The port with its colon. -/
def portText (port : Option Port) : Text := (port.map fun p => ':' :: p.digits).getD []

/-- The path with what may follow it. -/
def Remote.tail (r : Remote) (s : Spelling) : Text :=
  r.path ++ ((if s.dotGit then DOT_GIT else []) ++ if s.slash then ['/'] else [])

/-- The host, the port and the path of a URL. -/
def Remote.located (r : Remote) (s : Spelling) : Text :=
  r.host.text ++ (portText r.port ++ '/' :: r.tail s)

/-- The text of a spelling.  The scp style has no place for a port. -/
def Remote.spell (r : Remote) (s : Spelling) : Text :=
  match s.form with
  | .https => "https".toList ++ (SCHEME_END ++ (userText s.user ++ r.located s))
  | .ssh => "ssh".toList ++ (SCHEME_END ++ (userText s.user ++ r.located s))
  | .scp => userText s.user ++ (r.host.text ++ ':' :: r.tail s)

/-- `host/owner/repo`, in lower case. -/
def Remote.projectId (T : CaseTable) (r : Remote) : Text :=
  T.toLowercase (r.host.text ++ '/' :: r.path)

/-- The same host and path up to the case of letters. -/
def SameRemote (T : CaseTable) (r r' : Remote) : Prop :=
  T.toLowercase r.host.text = T.toLowercase r'.host.text
    ∧ T.toLowercase r.path = T.toLowercase r'.path

/-- All spellings of a remote have one id, and no spelling of another remote has it. -/
def Identifies (T : CaseTable) (r : Remote) : Prop :=
  (∀ s s', normaliseGitUrl T (r.spell s) = normaliseGitUrl T (r.spell s'))
    ∧ ∀ r', ¬ SameRemote T r r' → ∀ s s',
        normaliseGitUrl T (r.spell s) ≠ normaliseGitUrl T (r'.spell s')

/-- A spelling in which the first `://`, `@` and `:` are those that delimit its parts, without a port
and without a slash at its end. -/
def Remote.Plain (r : Remote) (s : Spelling) : Prop :=
  s.slash = false ∧ ':' ∉ r.host.text ∧ (s.user = none → '@' ∉ r.path)
    ∧ match s.form with
      | .scp => ¬ SCHEME_END <:+: r.path
      | _ => r.port = none ∧ ':' ∉ r.path

/-! ## The marks of a spelling -/

section Marks

variable {r : Remote} {s : Spelling}

theorem marks_stripSuffix (text : Text) : marks (stripSuffix DOT_GIT text) = marks text := by
  rcases stripSuffix_cases DOT_GIT text with h | h
  · conv_rhs => rw [h, marks_append, show marks DOT_GIT = [] from rfl, List.append_nil]
  · rw [← h]

theorem count_stripSuffix {c : Char} (hc : isMark c = true) (text : Text) :
    (stripSuffix DOT_GIT text).count c = text.count c := by
  rw [← count_marks hc, marks_stripSuffix, count_marks hc]

theorem Name.count_slash (n : Name) : n.text.count '/' = 0 :=
  List.count_eq_zero.mpr fun h => (n.plain _ h).1 rfl

theorem Name.count_at (n : Name) : n.text.count '@' = 0 :=
  List.count_eq_zero.mpr fun h => (n.plain _ h).2 rfl

theorem Port.not_mark (p : Port) {c : Char} (hc : isMark c = true) : c ∉ p.digits := by
  intro hmem
  have hdigit := p.isDigit c hmem
  clear hmem
  have hmarks : ∀ c ∈ ['/', ':', '@'], c.isDigit ≠ true := List.all_iff_forall_prop.mp (by decide)
  exact hmarks c (isMark_iff.mp hc) hdigit

theorem count_slash_tail : (r.tail s).count '/' = r.path.count '/' + if s.slash then 1 else 0 := by
  rw [Remote.tail]
  cases s.dotGit <;> cases s.slash <;> simp [DOT_GIT]

theorem count_at_tail : (r.tail s).count '@' = r.path.count '@' := by
  rw [Remote.tail]
  cases s.dotGit <;> cases s.slash <;> simp [DOT_GIT]

theorem colon_mem_tail : ':' ∈ r.tail s ↔ ':' ∈ r.path := by
  rw [Remote.tail]
  cases s.dotGit <;> cases s.slash <;> simp [DOT_GIT]

theorem count_slash_located :
    (r.located s).count '/' = r.path.count '/' + 1 + if s.slash then 1 else 0 := by
  have hport : (portText r.port).count '/' = 0 := by
    cases hp : r.port with
    | none => rfl
    | some p =>
      have hdigits : p.digits.count '/' = 0 := List.count_eq_zero.mpr (p.not_mark rfl)
      simpa [portText] using hdigits
  rw [Remote.located, List.count_append, List.count_append, List.count_cons_self, count_slash_tail,
    r.host.count_slash, hport]
  omega

theorem count_at_located : (r.located s).count '@' = r.path.count '@' := by
  have hport : (portText r.port).count '@' = 0 := by
    cases hp : r.port with
    | none => rfl
    | some p =>
      have hdigits : p.digits.count '@' = 0 := List.count_eq_zero.mpr (p.not_mark rfl)
      simpa [portText] using hdigits
  rw [Remote.located, List.count_append, List.count_append, List.count_cons_of_ne (by decide),
    count_at_tail, r.host.count_at, hport]
  omega

theorem colon_mem_located :
    ':' ∈ r.located s ↔ ':' ∈ r.host.text ∨ r.port ≠ none ∨ ':' ∈ r.path := by
  have hport : ':' ∈ portText r.port ↔ r.port ≠ none := by
    cases r.port <;> simp [portText]
  rw [Remote.located, List.mem_append, List.mem_append, List.mem_cons, colon_mem_tail, hport]
  simp

/-! ## The user -/

/-- With a user, or without an `@` behind it, the user is what is taken off. -/
theorem withoutUser_of_plain {user : Option Name} {body : Text}
    (h : user = none → '@' ∉ body) : withoutUser (userText user ++ body) = body := by
  cases user with
  | none =>
    show withoutUser body = body
    rw [withoutUser, after?_singleton_none (h rfl)]
    rfl
  | some u =>
    have hu : '@' ∉ u.text := fun hmem => (u.plain _ hmem).2 rfl
    show withoutUser ((u.text ++ ['@']) ++ body) = body
    rw [withoutUser, List.append_assoc, after?_append [] hu]
    rfl

theorem count_withoutUser_lt {body : Text} (h : '@' ∈ body) :
    (withoutUser body).count '@' < body.count '@' := by
  obtain ⟨rest, hrest⟩ : ∃ rest, after? ['@'] body = some rest := by
    refine Option.ne_none_iff_exists'.mp fun hnone => ?_
    refine (after?_eq_none_iff (List.cons_ne_nil _ _)).mp hnone ?_
    obtain ⟨front, back, rfl⟩ := List.append_of_mem h
    exact ⟨front, back, by simp⟩
  obtain ⟨front, hfront⟩ := exists_of_after? hrest
  rw [withoutUser, hrest, Option.getD_some, hfront]
  simp [List.count_append]
  omega

theorem count_withoutUser_le (c : Char) (body : Text) :
    (withoutUser body).count c ≤ body.count c := by
  rw [withoutUser]
  cases hrest : after? ['@'] body with
  | none => exact le_refl _
  | some rest =>
    obtain ⟨front, hfront⟩ := exists_of_after? hrest
    rw [Option.getD_some, hfront, List.count_append, List.count_append]
    omega

end Marks

/-! ## What is read of a spelling -/

section Read

variable {T : CaseTable} {r r' : Remote} {s s' : Spelling}
variable {text : Text}

theorem marks_of_id (h : normaliseGitUrl T text = r.projectId T) :
    marks (read text) = marks (r.host.text ++ '/' :: r.path) := by
  rw [← marks_toLowercase (T := T), ← marks_toLowercase (T := T) (r.host.text ++ _)]
  exact congrArg marks h

theorem count_of_id (h : normaliseGitUrl T text = r.projectId T) :
    (read text).count '/' = r.path.count '/' + 1 ∧ (read text).count '@' = r.path.count '@' := by
  have hmarks := marks_of_id h
  have hslash := congrArg (List.count '/') hmarks
  have hat := congrArg (List.count '@') hmarks
  rw [count_marks rfl, count_marks rfl, List.count_append, r.host.count_slash,
    List.count_cons_self] at hslash
  rw [count_marks rfl, count_marks rfl, List.count_append, r.host.count_at,
    List.count_cons_of_ne (by decide)] at hat
  omega

theorem count_slash_read (text : Text) :
    (read text).count '/' = (withoutUser (withoutScheme text)).count '/'
      + if ':' ∈ withoutUser (withoutScheme text) then 1 else 0 := by
  rw [read, count_stripSuffix rfl, count_replaceFirst (by decide)]

theorem count_at_read (text : Text) :
    (read text).count '@' = (withoutUser (withoutScheme text)).count '@' := by
  rw [read, count_stripSuffix rfl, count_replaceFirst_of_ne (by decide) (by decide)]

/-- What is left of `host/path` and what may follow it is `host/path`. -/
theorem stripSuffix_tail (hslash : s.slash = false) :
    stripSuffix DOT_GIT (r.host.text ++ '/' :: r.tail s) = r.host.text ++ '/' :: r.path := by
  rw [Remote.tail, hslash]
  cases s.dotGit with
  | true =>
    have hassoc : r.host.text ++ '/' :: (r.path ++ (DOT_GIT ++ []))
        = (r.host.text ++ '/' :: r.path) ++ DOT_GIT := by simp
    show stripSuffix DOT_GIT (r.host.text ++ '/' :: (r.path ++ (DOT_GIT ++ []))) = _
    rw [hassoc, stripSuffix_append]
  | false =>
    show stripSuffix DOT_GIT (r.host.text ++ '/' :: (r.path ++ [])) = _
    rw [List.append_nil]
    refine stripSuffix_of_not fun hsuffix => r.path_git ?_
    -- a suffix without a slash lies behind the slash
    rcases List.suffix_or_suffix_of_suffix hsuffix
      (show '/' :: r.path <:+ r.host.text ++ '/' :: r.path from List.suffix_append _ _) with h | h
    · rcases List.suffix_cons_iff.mp h with heq | hpath
      · exact absurd heq (by simp [DOT_GIT])
      · exact hpath
    · exact absurd (h.subset List.mem_cons_self) (by decide)

theorem withoutScheme_url (hform : s.form ≠ .scp) :
    withoutScheme (r.spell s) = userText s.user ++ r.located s := by
  have hafter : ∀ scheme : Text, ':' ∉ scheme → ∀ text : Text,
      withoutScheme (scheme ++ (SCHEME_END ++ text)) = text := by
    intro scheme hscheme text
    rw [withoutScheme, SCHEME_END, after?_append ['/', '/'] hscheme]
    rfl
  rw [Remote.spell]
  cases hf : s.form with
  | https => exact hafter _ (by decide) _
  | ssh => exact hafter _ (by decide) _
  | scp => exact absurd hf hform

theorem normalise_url_iff (hform : s.form ≠ .scp) :
    normaliseGitUrl T (r.spell s) = r.projectId T ↔ s.slash = false ∧ ':' ∉ r.host.text
      ∧ (s.user = none → '@' ∉ r.path) ∧ r.port = none ∧ ':' ∉ r.path := by
  have hat : '@' ∈ r.located s ↔ '@' ∈ r.path := by
    rw [← List.count_pos_iff, ← List.count_pos_iff, count_at_located]
  constructor
  · intro hid
    -- ids are told apart by how many slashes and at signs they have
    obtain ⟨hslashes, hats⟩ := count_of_id hid
    rw [count_slash_read, withoutScheme_url hform] at hslashes
    rw [count_at_read, withoutScheme_url hform] at hats
    have huser : s.user = none → '@' ∉ r.path := by
      intro hnone hmem
      have hlt := count_withoutUser_lt (hat.mpr hmem)
      rw [hnone] at hats
      rw [count_at_located] at hlt
      exact absurd hats hlt.ne
    rw [withoutUser_of_plain fun hnone => fun hmem => huser hnone (hat.mp hmem),
      count_slash_located] at hslashes
    -- the first colon becomes a slash: one slash too many
    have hcolon : ':' ∉ r.located s := by
      intro hmem
      rw [if_pos hmem] at hslashes
      omega
    rw [if_neg hcolon] at hslashes
    have hslash : ¬ s.slash = true := by
      intro hs
      rw [if_pos hs] at hslashes
      omega
    rw [colon_mem_located] at hcolon
    push Not at hcolon
    exact ⟨Bool.not_eq_true _ ▸ hslash, hcolon.1, huser, hcolon.2.1, hcolon.2.2⟩
  · rintro ⟨hslash, hhost, huser, hport, hpath⟩
    have hcolon : ':' ∉ r.located s := by
      rw [colon_mem_located]
      push Not
      exact ⟨hhost, hport, hpath⟩
    have hlocated : r.located s = r.host.text ++ '/' :: r.tail s := by
      rw [Remote.located, hport]
      rfl
    rw [normaliseGitUrl, read, withoutScheme_url hform,
      withoutUser_of_plain fun hnone => fun hmem => huser hnone (hat.mp hmem),
      replaceFirst_of_not_mem hcolon, hlocated, stripSuffix_tail hslash, Remote.projectId]

/-! ### The scp style -/

/-- A `://` that ends with a character was there before it, or the character is its last slash. -/
theorem infix_of_concat {c : Char} (h : SCHEME_END <:+: text ++ [c]) :
    SCHEME_END <:+: text ∨ c = '/' ∧ text.getLast? = some '/' := by
  rcases List.infix_concat_iff.mp h with ⟨front, hfront⟩ | hin
  · have hsplit : (front ++ [':', '/']) ++ ['/'] = text ++ [c] := by
      rw [← hfront, SCHEME_END]
      simp
    obtain ⟨htext, hc⟩ := List.append_inj' hsplit rfl
    refine .inr ⟨(List.singleton_inj.mp hc).symm, ?_⟩
    rw [← htext]
    simp
  · exact .inl hin

/-- A `://` behind a text without slashes and a colon lies behind the colon, unless two slashes follow
it. -/
theorem infix_of_append {front text : Text} (hfront : '/' ∉ front) (htext : text.head? ≠ some '/')
    (h : SCHEME_END <:+: front ++ text) : SCHEME_END <:+: text := by
  induction front with
  | nil => exact h
  | cons c front ih =>
    obtain ⟨-, hfront'⟩ := List.ne_and_not_mem_of_not_mem_cons hfront
    rcases List.infix_cons_iff.mp h with hpre | hin
    · -- the first slash would be in front, or the first character behind it
      exfalso
      obtain ⟨rest, hrest⟩ := hpre
      have hslash : '/' :: '/' :: rest = front ++ text := (List.cons.inj hrest).2
      cases front with
      | nil => exact htext (by rw [← List.nil_append text, ← hslash]; rfl)
      | cons d front => exact hfront' (by rw [← (List.cons.inj hslash).1]; exact List.mem_cons_self)
    · exact ih hfront' hin

theorem infix_spell_iff (hform : s.form = .scp) :
    SCHEME_END <:+: r.spell s ↔ SCHEME_END <:+: r.path := by
  have hspell : r.spell s = (userText s.user ++ (r.host.text ++ [':'])) ++ r.tail s := by
    rw [Remote.spell, hform]
    simp
  have hfront : '/' ∉ userText s.user ++ (r.host.text ++ [':']) := by
    have huser : '/' ∉ userText s.user := by
      cases s.user with
      | none => exact List.not_mem_nil
      | some u => simpa [userText] using fun h => (u.plain _ h).1 rfl
    have hhost : '/' ∉ r.host.text := fun h => (r.host.plain _ h).1 rfl
    simp [huser, hhost]
  have hhead : (r.tail s).head? ≠ some '/' := by
    obtain ⟨c, path, hpath⟩ := List.exists_cons_of_ne_nil r.path_ne
    have hstart := r.path_start
    rw [Remote.tail, hpath, List.cons_append]
    rwa [hpath] at hstart
  rw [hspell]
  constructor
  · intro h
    have htail := infix_of_append hfront hhead h
    have hlast := r.path_end
    -- the end of the path and what follows it hold no `://` between them
    rw [Remote.tail] at htail
    have hgit : SCHEME_END <:+: r.path ++ DOT_GIT → SCHEME_END <:+: r.path := by
      intro h
      have hsplit : r.path ++ DOT_GIT = r.path ++ ['.'] ++ ['g'] ++ ['i'] ++ ['t'] := by
        simp [DOT_GIT]
      rw [hsplit] at h
      have drop {text : Text} {c : Char} (hc : c ≠ '/') (h : SCHEME_END <:+: text ++ [c]) :
          SCHEME_END <:+: text := (infix_of_concat h).resolve_right fun hslash => hc hslash.1
      exact drop (by decide) (drop (by decide) (drop (by decide) (drop (by decide) h)))
    cases hg : s.dotGit <;> cases hs : s.slash <;>
      simp only [hg, hs, if_true, if_false, List.append_nil, List.nil_append, Bool.false_eq_true]
        at htail
    · exact htail
    · exact (infix_of_concat htail).resolve_right fun h => hlast h.2
    · exact hgit htail
    · rw [← List.append_assoc] at htail
      refine hgit ((infix_of_concat htail).resolve_right fun h => ?_)
      simp [DOT_GIT] at h
  · intro h
    refine h.trans ?_
    rw [Remote.tail]
    exact ⟨_, _, (List.append_assoc _ _ _)⟩

theorem withoutScheme_scp (hform : s.form = .scp) (hpath : ¬ SCHEME_END <:+: r.path) :
    withoutScheme (r.spell s) = userText s.user ++ (r.host.text ++ ':' :: r.tail s) := by
  rw [withoutScheme, (after?_eq_none_iff (by decide)).mpr (mt (infix_spell_iff hform).mp hpath),
    Option.getD_none, Remote.spell, hform]

/-- A `://` in the path is taken for that of a scheme, and with it two slashes go. -/
theorem count_slash_read_of_infix (hform : s.form = .scp) (hpath : SCHEME_END <:+: r.path) :
    (read (r.spell s)).count '/' ≤ r.path.count '/' := by
  obtain ⟨rest, hrest⟩ : ∃ rest, after? SCHEME_END (r.spell s) = some rest := by
    refine Option.ne_none_iff_exists'.mp fun hnone => ?_
    exact (after?_eq_none_iff (by decide)).mp hnone ((infix_spell_iff hform).mpr hpath)
  obtain ⟨front, hfront⟩ := exists_of_after? hrest
  have hspell : (r.spell s).count '/' = r.path.count '/' + if s.slash then 1 else 0 := by
    have huser : (userText s.user).count '/' = 0 := by
      cases s.user with
      | none => rfl
      | some u => simpa [userText] using u.count_slash
    rw [Remote.spell, hform]
    show (userText s.user ++ (r.host.text ++ ':' :: r.tail s)).count '/' = _
    rw [List.count_append, List.count_append, List.count_cons_of_ne (by decide), huser,
      r.host.count_slash, count_slash_tail]
    omega
  have hcount := congrArg (List.count '/') hfront
  rw [hspell, List.count_append, List.count_append, show SCHEME_END.count '/' = 2 from rfl] at hcount
  have hle := count_withoutUser_le '/' rest
  rw [count_slash_read, withoutScheme, hrest, Option.getD_some]
  split <;> split at hcount <;> omega

theorem normalise_scp_iff (hform : s.form = .scp) :
    normaliseGitUrl T (r.spell s) = r.projectId T ↔ s.slash = false ∧ ':' ∉ r.host.text
      ∧ (s.user = none → '@' ∉ r.path) ∧ ¬ SCHEME_END <:+: r.path := by
  have hcount : (r.host.text ++ ':' :: r.tail s).count '@' = r.path.count '@' := by
    rw [List.count_append, List.count_cons_of_ne (by decide), r.host.count_at, count_at_tail,
      Nat.zero_add]
  have hat : '@' ∈ r.host.text ++ ':' :: r.tail s ↔ '@' ∈ r.path := by
    rw [← List.count_pos_iff, ← List.count_pos_iff, hcount]
  constructor
  · intro hid
    obtain ⟨hslashes, hats⟩ := count_of_id hid
    have hscheme : ¬ SCHEME_END <:+: r.path := by
      intro hin
      have hle := count_slash_read_of_infix (s := s) hform hin
      omega
    have huser : s.user = none → '@' ∉ r.path := by
      intro hnone hmem
      have hlt := count_withoutUser_lt (hat.mpr hmem)
      rw [count_at_read, withoutScheme_scp hform hscheme, hnone] at hats
      rw [hcount] at hlt
      exact absurd hats hlt.ne
    have hbody : withoutUser (withoutScheme (r.spell s)) = r.host.text ++ ':' :: r.tail s := by
      rw [withoutScheme_scp hform hscheme]
      exact withoutUser_of_plain fun hnone hmem => huser hnone (hat.mp hmem)
    have hhost : ':' ∉ r.host.text := by
      intro hmem
      -- the colon that becomes a slash is the host's, and comes before the path's slash
      obtain ⟨a, b, hab, ha⟩ := List.eq_append_cons_of_mem hmem
      have hnone : marks a = [] := by
        refine marks_eq_nil fun c hc => ?_
        have hplain := r.host.plain c (by rw [hab]; exact List.mem_append_left _ hc)
        have hcolon : c ≠ ':' := fun h => ha (h ▸ hc)
        simp [isMark, hplain, hcolon]
      have hread : marks (read (r.spell s)) = '/' :: marks (b ++ ':' :: r.tail s) := by
        rw [read, hbody, marks_stripSuffix, hab, List.append_assoc, List.cons_append,
          replaceFirst_append_cons ha, marks_append, hnone, List.nil_append, marks_cons_of_mark rfl]
      have hright : marks (r.host.text ++ '/' :: r.path) = ':' :: marks (b ++ '/' :: r.path) := by
        rw [hab, List.append_assoc, List.cons_append, marks_append, hnone, List.nil_append,
          marks_cons_of_mark rfl]
      have hmarks := hread.symm.trans ((marks_of_id hid).trans hright)
      exact absurd (List.cons.inj hmarks).1 (by decide)
    refine ⟨?_, hhost, huser, hscheme⟩
    rw [read, hbody, replaceFirst_append_cons hhost, count_stripSuffix rfl, List.count_append,
      List.count_cons_self, r.host.count_slash, count_slash_tail] at hslashes
    cases hs : s.slash with
    | false => rfl
    | true =>
      rw [hs, if_pos rfl] at hslashes
      omega
  · rintro ⟨hslash, hhost, huser, hscheme⟩
    rw [normaliseGitUrl, read, withoutScheme_scp hform hscheme,
      withoutUser_of_plain fun hnone hmem => huser hnone (hat.mp hmem),
      replaceFirst_append_cons hhost, stripSuffix_tail hslash, Remote.projectId]

/-- A spelling gives the id of its remote exactly when it is plain. -/
theorem normalise_eq_iff (r : Remote) (s : Spelling) :
    normaliseGitUrl T (r.spell s) = r.projectId T ↔ r.Plain s := by
  rw [Remote.Plain]
  cases hform : s.form with
  | https => exact normalise_url_iff (by rw [hform]; decide)
  | ssh => exact normalise_url_iff (by rw [hform]; decide)
  | scp => exact normalise_scp_iff hform

/-- The id of a remote says which remote it is, but for the case of letters. -/
theorem projectId_eq_iff (r r' : Remote) : r.projectId T = r'.projectId T ↔ SameRemote T r r' := by
  have hhost (r : Remote) : '/' ∉ T.toLowercase r.host.text := by
    rw [mem_toLowercase_iff rfl]
    exact fun h => (r.host.plain _ h).1 rfl
  rw [Remote.projectId, Remote.projectId, toLowercase_slash, toLowercase_slash, SameRemote]
  constructor
  · intro heq
    have hpaths : T.toLowercase r.path = T.toLowercase r'.path :=
      Option.some.inj ((after?_append [] (hhost r) _).symm.trans
        ((congrArg (after? ['/']) heq).trans (after?_append [] (hhost r') _)))
    rw [hpaths] at heq
    exact ⟨List.append_cancel_right heq, hpaths⟩
  · rintro ⟨hhosts, hpaths⟩
    rw [hhosts, hpaths]

end Read

/-! ## Which spellings identify a remote -/

/-- The user that hosting services give to everyone. -/
def gitUser : Name := ⟨"git".toList, List.all_iff_forall_prop.mp (by decide)⟩

theorem not_identifies (T : CaseTable) (r : Remote) : ¬ Identifies T r := by
  intro h
  have hcount (slash : Bool) : (read (r.spell ⟨.https, some gitUser, false, slash⟩)).count '/'
      = (r.path.count '/' + 1 + if slash then 1 else 0)
        + if ':' ∈ r.host.text ∨ r.port ≠ none ∨ ':' ∈ r.path then 1 else 0 := by
    rw [count_slash_read, withoutScheme_url (fun h => by cases h), withoutUser_of_plain (by simp),
      count_slash_located]
    simp only [colon_mem_located]
  have hids := h.1 ⟨.https, some gitUser, false, false⟩ ⟨.https, some gitUser, false, true⟩
  have hmarks := congrArg marks hids
  rw [normaliseGitUrl, normaliseGitUrl, marks_toLowercase, marks_toLowercase] at hmarks
  have hslashes := congrArg (List.count '/') hmarks
  rw [count_marks rfl, count_marks rfl, hcount, hcount] at hslashes
  simp at hslashes

/-- No remote has one id in all its spellings, since a slash at the end stays; a spelling gives
`host/path` exactly when it is plain; and plain spellings give one id to one remote and to no
other. -/
theorem normalise_law (T : CaseTable) :
    (∀ r, ¬ Identifies T r)
      ∧ (∀ (r : Remote) s, normaliseGitUrl T (r.spell s) = r.projectId T ↔ r.Plain s)
      ∧ ∀ (r r' : Remote) s s', r.Plain s → r'.Plain s' →
          (normaliseGitUrl T (r.spell s) = normaliseGitUrl T (r'.spell s') ↔ SameRemote T r r') := by
  refine ⟨not_identifies T, normalise_eq_iff, fun r r' s s' hs hs' => ?_⟩
  rw [(normalise_eq_iff r s).mpr hs, (normalise_eq_iff r' s').mpr hs', projectId_eq_iff]

/-- The letters of ASCII. -/
def asciiPairs : List (Char × Char) :=
  "ABCDEFGHIJKLMNOPQRSTUVWXYZ".toList.zip "abcdefghijklmnopqrstuvwxyz".toList

def asciiCase : CaseTable where
  lowerChar c := [((asciiPairs.find? fun p => p.1 = c).map Prod.snd).getD c]
  isCased c := c.isAlpha
  isCaseIgnorable c := ['\'', '.', ':', '^', '_'].contains c
  keeps := List.all_iff_forall_prop.mp (by decide)
  makes := by
    intro c d hd hmark
    have hpairs : ∀ p ∈ asciiPairs, p.2 ∉ ['/', ':', '@'] := by decide
    obtain rfl := List.mem_singleton.mp hd
    cases hfind : asciiPairs.find? fun p => p.1 = c with
    | none => rfl
    | some p =>
      rw [hfind] at hmark
      exact absurd hmark (hpairs p (List.mem_of_find?_eq_some hfind))
  slash := by decide

/-- `https` without a user, a port or anything behind the path. -/
def plainHttps : Spelling := ⟨.https, none, false, false⟩

def repoRemote : Remote :=
  ⟨⟨"github.com".toList, List.all_iff_forall_prop.mp (by decide)⟩, none, "owner/repo".toList,
    by decide, by decide, by decide, by decide⟩

def aliceRemote : Remote :=
  ⟨⟨"a.com".toList, List.all_iff_forall_prop.mp (by decide)⟩, none, "alice/x@y".toList,
    by decide, by decide, by decide, by decide⟩

def bobRemote : Remote :=
  ⟨⟨"b.com".toList, List.all_iff_forall_prop.mp (by decide)⟩, none, "bob/z@y".toList,
    by decide, by decide, by decide, by decide⟩

/-- Two spellings of one remote with two ids, and two remotes with one. -/
theorem not_identifies_of_slash_or_at :
    normaliseGitUrl asciiCase (repoRemote.spell plainHttps)
        ≠ normaliseGitUrl asciiCase (repoRemote.spell { plainHttps with slash := true })
      ∧ ¬ SameRemote asciiCase aliceRemote bobRemote
      ∧ normaliseGitUrl asciiCase (aliceRemote.spell plainHttps)
        = normaliseGitUrl asciiCase (bobRemote.spell plainHttps)
      ∧ ¬ Identifies asciiCase repoRemote ∧ ¬ Identifies asciiCase aliceRemote := by
  have hslash : normaliseGitUrl asciiCase (repoRemote.spell plainHttps)
      ≠ normaliseGitUrl asciiCase (repoRemote.spell { plainHttps with slash := true }) := by
    decide +kernel
  have hother : ¬ SameRemote asciiCase aliceRemote bobRemote := fun h => by
    revert h
    unfold SameRemote
    decide +kernel
  have hsame : normaliseGitUrl asciiCase (aliceRemote.spell plainHttps)
      = normaliseGitUrl asciiCase (bobRemote.spell plainHttps) := by
    decide +kernel
  exact ⟨hslash, hother, hsame, fun h => hslash (h.1 _ _), fun h => h.2 bobRemote hother _ _ hsame⟩

end ProjectId
end Inkentry
