/-
  Inkentry.Search.Lexical

  What the code index and its queries take for words.

  The full-text tokenizer splits at everything that is not a letter or a digit
  and keeps a camel-case identifier whole.  `identifierSubwords` adds the parts
  of compound identifiers to the indexed text, and `codeFtsQuery` adds them to
  the query, as quoted terms joined by `OR`.

  Letters and their case are those of Unicode; `CharTable` holds what is used
  of its tables.
-/

import Inkentry.Lib.WordRuns
import Mathlib.Data.List.Infix

namespace Inkentry
namespace Search

open WordRuns

abbrev Text := List Char

/-! ## Characters -/

/-- The character tables of the language and of the tokenizer. -/
structure CharTable where
  isAlphabetic : Char → Bool
  isNumeric : Char → Bool
  isUppercase : Char → Bool
  isLowercase : Char → Bool
  /-- `char::to_lowercase`, one or more characters. -/
  lowerChar : Char → Text
  /-- Whether a capital sigma between these ends its word. -/
  endsWord : Text → Text → Bool
  /-- The tokenizer's case folding. -/
  fold : Char → Char
  delimiters : ∀ c ∈ [' ', '"', '_'], (isAlphabetic c || isNumeric c) = false
  /-- Lowering makes no delimiter of anything else. -/
  lower_delimiters : ∀ c, ∀ d ∈ lowerChar c, d ∈ [' ', '"', '_'] → d = c
  lower_underscore : lowerChar '_' = ['_']
  /-- A character's lowercase is one character, which the tokenizer takes for the same, or holds
      one that is no part of a word. -/
  lower_cases : ∀ c, (∃ d, lowerChar c = [d]
      ∧ (isAlphabetic d || isNumeric d) = (isAlphabetic c || isNumeric c) ∧ fold d = fold c)
    ∨ ∃ d ∈ lowerChar c, (isAlphabetic d || isNumeric d || d = '_') = false
  sigma : ∀ d ∈ ['σ', 'ς'], fold d = fold 'Σ'
    ∧ (isAlphabetic d || isNumeric d) = (isAlphabetic 'Σ' || isNumeric 'Σ')
  ascii : ∀ c, 'a' ≤ c → c ≤ 'z' → isAlphabetic c = true ∧ isNumeric c = false
    ∧ isUppercase c = false ∧ lowerChar c = [c] ∧ fold c = c

variable (T : CharTable)

def CharTable.isAlphanumeric (c : Char) : Bool := T.isAlphabetic c || T.isNumeric c

def CharTable.isWordChar (c : Char) : Bool := T.isAlphanumeric c || c = '_'

/-- `str::to_lowercase`, the text in front read backwards. -/
def CharTable.lowerFrom (front : Text) : Text → Text
  | [] => []
  | c :: text =>
    (if c = 'Σ' then [if T.endsWord front text then 'ς' else 'σ'] else T.lowerChar c)
      ++ CharTable.lowerFrom (c :: front) text

def CharTable.toLowercase (text : Text) : Text := T.lowerFrom [] text

/-! ## Words -/

def stopwords : List Text :=
  ["a", "an", "and", "are", "as", "at", "be", "by", "code", "do", "does", "find", "for", "from",
    "function", "get", "how", "in", "into", "is", "it", "its", "of", "on", "or", "set", "that",
    "the", "this", "to", "use", "used", "using", "via", "what", "when", "where", "whether",
    "which", "why", "with"].map String.toList

def CharTable.words (text : Text) : List Text := runs T.isWordChar text

/-- Whether a part ends between two characters. -/
def CharTable.boundary (prev cur : Char) (next : Option Char) : Bool :=
  T.isLowercase prev && T.isUppercase cur
    || T.isUppercase prev && T.isUppercase cur && next.any T.isLowercase
    || T.isAlphabetic prev && T.isNumeric cur
    || T.isNumeric prev && T.isAlphabetic cur

/-- The parts of a segment of which `part` is read, up to `prev`. -/
def CharTable.cutSegment (part : Text) (prev : Char) : Text → List Text
  | [] => [part]
  | cur :: rest =>
    if T.boundary prev cur rest.head? then part :: CharTable.cutSegment [cur] cur rest
    else CharTable.cutSegment (part ++ [cur]) cur rest

def CharTable.segmentParts : Text → List Text
  | [] => []
  | c :: rest => T.cutSegment [c] c rest

/-- The parts of an identifier as it spells them. -/
def CharTable.spelledParts (word : Text) : List Text := (word.splitOn '_').flatMap T.segmentParts

def CharTable.splitIdentifier (word : Text) : List Text := (T.spelledParts word).map T.toLowercase

/-- The lowercased parts of a word that splits. -/
def CharTable.compoundParts (word : Text) : List Text :=
  if 1 < (T.splitIdentifier word).length then T.splitIdentifier word else []

/-- A word behind others, separated by a space. -/
def pushSpaced (out part : Text) : Text := (if out.isEmpty then out else out ++ [' ']) ++ part

def CharTable.identifierSubwords (text : Text) : Text :=
  ((T.words text).flatMap T.compoundParts).foldl pushSpaced []

/-! ## The query -/

/-- Adds a term once. -/
def pushTerm (list : List Text) (t : Text) : List Text := if t ∈ list then list else list ++ [t]

def pushUnlessStopword (list : List Text) (t : Text) : List Text :=
  if t ∈ stopwords then list else pushTerm list t

/-- The terms, and every word. -/
def CharTable.pushWord (acc : List Text × List Text) (word : Text) : List Text × List Text :=
  let lower := T.toLowercase word
  ((T.compoundParts word).foldl pushUnlessStopword (pushUnlessStopword acc.1 lower),
    pushTerm acc.2 lower)

def CharTable.queryTerms (query : Text) : List Text :=
  let (terms, all) := (T.words query).foldl T.pushWord ([], [])
  if terms = [] then all else terms

def quote (t : Text) : Text := '"' :: (t ++ ['"'])

def orSeparator : Text := [' ', 'O', 'R', ' ']

def CharTable.codeFtsQuery (query : Text) : Text :=
  if T.queryTerms query = [] then quote []
  else orSeparator.intercalate ((T.queryTerms query).map quote)

/-! ## The index -/

/-- The tokens of a text: its longest stretches of letters and digits, folded. -/
def CharTable.tokens (text : Text) : List Text := (runs T.isAlphanumeric text).map (List.map T.fold)

/-- The tokens of an indexed text, the parts of its identifiers behind it. -/
def CharTable.indexed (text : Text) : List Text :=
  T.tokens (text ++ ' ' :: T.identifierSubwords text)

inductive Lexeme where
  /-- A quoted string, a literal. -/
  | string (s : Text)
  /-- A bare word, which an operator is one of. -/
  | bare (s : Text)
  deriving DecidableEq

/-- What the lexer is in the middle of. -/
inductive LexState where
  | between
  | quoted (s : Text)
  /-- Behind a quote, which ends the string unless another follows. -/
  | quoteSeen (s : Text)
  | bare (s : Text)

def isBareChar (c : Char) : Bool := c.isAlphanum || c = '_' || 128 ≤ c.toNat || c.toNat = 26

/-- The state behind a character that starts a lexeme; other punctuation is none of them. -/
def lexStart (c : Char) : Option LexState :=
  if c = ' ' then some .between
  else if c = '"' then some (.quoted [])
  else if isBareChar c then some (.bare [c])
  else none

def lex : LexState → Text → Option (List Lexeme)
  | .between, [] => some []
  | .between, c :: text => (lexStart c).bind fun state => lex state text
  | .quoted _, [] => none
  | .quoted s, c :: text => if c = '"' then lex (.quoteSeen s) text else lex (.quoted (s ++ [c])) text
  | .quoteSeen s, [] => some [.string s]
  | .quoteSeen s, c :: text =>
    if c = '"' then lex (.quoted (s ++ ['"'])) text
    else ((lexStart c).bind fun state => lex state text).map (.string s :: ·)
  | .bare s, [] => some [.bare s]
  | .bare s, c :: text =>
    if isBareChar c then lex (.bare (s ++ [c])) text
    else ((lexStart c).bind fun state => lex state text).map (.bare s :: ·)

/-- An expression of literals joined by `OR`; no other form is read. -/
def parseOr : List Lexeme → Option (List Text)
  | [.string s] => some [s]
  | .string s :: .bare ['O', 'R'] :: rest => (parseOr rest).map (s :: ·)
  | _ => none

def parseExpression (expression : Text) : Option (List Text) := (lex .between expression).bind parseOr

/-- A literal is a phrase: its tokens one after the other.  One without tokens is found nowhere. -/
def CharTable.phraseMatches (doc : List Text) (literal : Text) : Bool :=
  !(T.tokens literal).isEmpty && decide (T.tokens literal <:+: doc)

/-- Whether a document is found. -/
def CharTable.ftsMatch (expression : Text) (doc : List Text) : Bool :=
  match parseExpression expression with
  | some literals => literals.any (T.phraseMatches doc)
  | none => false

/-! ## Agreement -/

/-- The words of a text and the parts of the compound ones, as they are spelled. -/
def CharTable.names (text : Text) : List Text :=
  (T.words text).flatMap fun word =>
    word :: if 1 < (T.spelledParts word).length then T.spelledParts word else []

def CharTable.isStopword (name : Text) : Bool := T.toLowercase name ∈ stopwords

def CharTable.onlyStopwords (query : Text) : Bool := (T.words query).all T.isStopword

/-- The query is an expression of literals, and finds every text it shares a name with. -/
structure Agrees (query : Text) : Prop where
  valid : parseExpression (T.codeFtsQuery query)
    = some (if T.queryTerms query = [] then [[]] else T.queryTerms query)
  finds : ∀ text, ∀ a ∈ T.names query, ∀ b ∈ T.names text, T.toLowercase a = T.toLowercase b →
    (T.isStopword a = false ∨ T.onlyStopwords query = true) →
    T.ftsMatch (T.codeFtsQuery query) (T.indexed text) = true

/-- The lowercase of a character is one character that the tokenizer takes for the same. -/
def CharTable.LowersPlainly (c : Char) : Prop :=
  c = 'Σ' ∨ ∃ d, T.lowerChar c = [d] ∧ T.isAlphanumeric d = T.isAlphanumeric c ∧ T.fold d = T.fold c

/-- No word is made of underscores alone, and when every word is a stopword the parts of the
    compound ones are among them. -/
structure Searchable (query : Text) : Prop where
  visible : ∀ word ∈ T.words query, ∃ c ∈ word, c ≠ '_'
  ownParts : T.onlyStopwords query = true → ∀ word ∈ T.words query, ∀ part ∈ T.compoundParts word,
    part ∈ (T.words query).map T.toLowercase

end Search
end Inkentry
