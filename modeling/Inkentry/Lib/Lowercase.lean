/-
  Inkentry.Lib.Lowercase

  `str::to_lowercase`: character by character, but for the capital sigma, which
  is a final sigma at the end of a word.

  The characters of Unicode's tables are parameters; of the marks `/`, `:` and
  `@` the tables say that lowering keeps them and makes them of nothing else.
  The marks of a text are then those of its lowercase (`marks_toLowercase`), and
  a slash divides the two alike (`toLowercase_slash`).
-/

import Mathlib.Data.List.Basic

namespace Lowercase

/-- What lowering uses of the character tables. -/
structure CaseTable where
  /-- `char::to_lowercase`, one or more characters. -/
  lowerChar : Char → List Char
  isCased : Char → Bool
  isCaseIgnorable : Char → Bool
  keeps : ∀ c ∈ ['/', ':', '@'], lowerChar c = [c]
  makes : ∀ c, ∀ d ∈ lowerChar c, d ∈ ['/', ':', '@'] → d = c
  slash : isCased '/' = false ∧ isCaseIgnorable '/' = false

variable (T : CaseTable)

/-- Whether the first character that is not passed over is a letter. -/
def CaseTable.caseIgnorableThenCased (text : List Char) : Bool :=
  (text.dropWhile T.isCaseIgnorable).head?.any T.isCased

/-- A sigma ends its word when a letter precedes it and none follows; the text in front is read
backwards. -/
def CaseTable.mapUppercaseSigma (front text : List Char) : Char :=
  if T.caseIgnorableThenCased front && !T.caseIgnorableThenCased text then 'ς' else 'σ'

def CaseTable.lowerFrom (front : List Char) : List Char → List Char
  | [] => []
  | c :: text =>
    (if c = 'Σ' then [T.mapUppercaseSigma front text] else T.lowerChar c)
      ++ CaseTable.lowerFrom (c :: front) text

def CaseTable.toLowercase (text : List Char) : List Char := T.lowerFrom [] text

/-! ## Marks -/

variable {c : Char}

def isMark (c : Char) : Bool := ['/', ':', '@'].contains c

def marks (text : List Char) : List Char := text.filter isMark

theorem marks_append (text text' : List Char) : marks (text ++ text') = marks text ++ marks text' :=
  List.filter_append _ _

theorem marks_cons_of_mark (hc : isMark c = true) (text : List Char) :
    marks (c :: text) = c :: marks text := List.filter_cons_of_pos hc

theorem marks_eq_nil {text : List Char} (h : ∀ c ∈ text, isMark c = false) : marks text = [] :=
  List.filter_eq_nil_iff.mpr fun c hc => by simp [h c hc]

theorem count_marks (hc : isMark c = true) (text : List Char) :
    (marks text).count c = text.count c := List.count_filter hc

variable {T}

theorem isMark_iff : isMark c = true ↔ c ∈ ['/', ':', '@'] := List.contains_iff_mem

theorem marks_lowerChar (c : Char) : marks (T.lowerChar c) = marks [c] := by
  by_cases hc : isMark c = true
  · rw [T.keeps c (isMark_iff.mp hc)]
  · have hnone : ∀ d ∈ T.lowerChar c, isMark d = false := by
      intro d hd
      by_contra hmark
      have hmark : isMark d = true := by simpa using hmark
      exact hc (T.makes c d hd (isMark_iff.mp hmark) ▸ hmark)
    rw [marks_eq_nil hnone, marks_eq_nil (by simpa using hc)]

theorem marks_lowerFrom (front text : List Char) : marks (T.lowerFrom front text) = marks text := by
  induction text generalizing front with
  | nil => rfl
  | cons c text ih =>
    have hone : marks (if c = 'Σ' then [T.mapUppercaseSigma front text] else T.lowerChar c)
        = marks [c] := by
      split
      case isTrue hsigma =>
        rw [hsigma, CaseTable.mapUppercaseSigma]
        split <;> rfl
      case isFalse => exact marks_lowerChar c
    rw [CaseTable.lowerFrom, marks_append, hone, ih, ← marks_append, List.singleton_append]

theorem marks_toLowercase (text : List Char) : marks (T.toLowercase text) = marks text :=
  marks_lowerFrom [] text

/-! ## Slashes -/

theorem caseIgnorableThenCased_slash (text rest : List Char) :
    T.caseIgnorableThenCased (text ++ '/' :: rest) = T.caseIgnorableThenCased text := by
  induction text with
  | nil =>
    simp [CaseTable.caseIgnorableThenCased, List.dropWhile_cons, T.slash.1, T.slash.2]
  | cons c text ih =>
    rw [CaseTable.caseIgnorableThenCased, CaseTable.caseIgnorableThenCased] at ih ⊢
    rw [List.cons_append, List.dropWhile_cons, List.dropWhile_cons]
    split
    · exact ih
    · rfl

theorem lowerFrom_front_slash (text front rest : List Char) :
    T.lowerFrom (front ++ '/' :: rest) text = T.lowerFrom front text := by
  induction text generalizing front with
  | nil => rfl
  | cons c text ih =>
    rw [CaseTable.lowerFrom, CaseTable.lowerFrom, CaseTable.mapUppercaseSigma,
      CaseTable.mapUppercaseSigma, caseIgnorableThenCased_slash, ← List.cons_append, ih]

theorem lowerFrom_slash (front text rest : List Char) :
    T.lowerFrom front (text ++ '/' :: rest)
      = T.lowerFrom front text ++ '/' :: T.toLowercase rest := by
  induction text generalizing front with
  | nil =>
    have hslash : T.lowerChar '/' = ['/'] := T.keeps '/' (by decide)
    have hfront : T.lowerFrom ('/' :: front) rest = T.toLowercase rest :=
      lowerFrom_front_slash rest [] front
    show (if '/' = 'Σ' then _ else T.lowerChar '/') ++ T.lowerFrom ('/' :: front) rest = _
    rw [if_neg (by decide), hslash, hfront]
    rfl
  | cons c text ih =>
    rw [List.cons_append, CaseTable.lowerFrom, CaseTable.lowerFrom, CaseTable.mapUppercaseSigma,
      CaseTable.mapUppercaseSigma, caseIgnorableThenCased_slash, ih, List.append_assoc]

theorem toLowercase_slash (text rest : List Char) :
    T.toLowercase (text ++ '/' :: rest) = T.toLowercase text ++ '/' :: T.toLowercase rest :=
  lowerFrom_slash [] text rest

theorem mem_toLowercase_iff (hc : isMark c = true) {text : List Char} :
    c ∈ T.toLowercase text ↔ c ∈ text := by
  rw [← List.count_pos_iff, ← List.count_pos_iff, ← count_marks hc, marks_toLowercase,
    count_marks hc]

end Lowercase
