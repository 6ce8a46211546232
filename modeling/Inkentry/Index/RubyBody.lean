/-
  Inkentry.Index.RubyBody

  Splits the body of a Ruby class too large to keep whole into runs of one kind
  of declaration: the associations of a model, its validations, its scopes.
  Every line that is not blank lies in a run (`cover_runs`).
-/

import Inkentry.Lib.TextLines
import Mathlib.Algebra.GroupWithZero.Nat
import Mathlib.Order.Basic

namespace Inkentry
namespace Index
namespace RubyBody

open TextLines

/-! ## The code -/

/-- A run of statements: its first and last line, from 1, and the kind of declaration it makes. -/
structure Run where
  first : ℕ
  last : ℕ
  kind : Option String
  deriving DecidableEq, Repr

def startsWith (text : List Char) (pattern : String) : Bool := pattern.toList.isPrefixOf text

def trimStart (line : List Char) : List Char := line.dropWhile isWhitespace

def isUpper (c : Char) : Bool := 'A' ≤ c && c ≤ 'Z'

def isConstantName (word : List Char) : Bool :=
  1 < word.length && word.head?.any isUpper
    && word.all fun c => isUpper c || ('0' ≤ c && c ≤ '9') || c = '_'

/-- `= value`, but none of `==`, `=~` and `=>`. -/
def isAssignment (rest : List Char) : Bool :=
  let rest := trimStart rest
  startsWith rest "=" && !startsWith rest "==" && !startsWith rest "=~" && !startsWith rest "=>"

variable (isAlphanumeric : Char → Bool)

/-- The kind of declaration a statement makes, if it is known. -/
def kind (statement : List Char) : Option String :=
  let word := statement.takeWhile fun c => isAlphanumeric c || c = '_'
  let among (words : List String) : Bool := words.contains (String.ofList word)
  if among ["belongs_to", "has_many", "has_one", "has_and_belongs_to_many"] then "associations"
  else if among ["validates", "validate", "validates_with"] then "validations"
  else if startsWith word "validates_" then "validations"
  else if among ["scope", "default_scope"] then "scopes"
  else if startsWith word "before_" || startsWith word "after_" || startsWith word "around_" then
    "callbacks"
  else if among ["enum", "monetize", "attribute", "store_accessor", "encrypts", "serialize",
      "normalizes", "alias_attribute"] then "attributes"
  else if among ["delegate"] then "delegations"
  else if isConstantName word && isAssignment (statement.drop word.length) then "constants"
  else none

/-- The bytes before the first character that is not white space. -/
def indent (line : List Char) : ℕ := ((line.takeWhile isWhitespace).map Char.utf8Size).sum

def isCode (line : List Char) : Bool :=
  trimStart line ≠ [] && !startsWith (trimStart line) "#"

/-- The line of a number, from 1. -/
def lineAt (lines : List (List Char)) (n : ℕ) : List Char := lines.getD (n - 1) []

/-- The numbers from one to another. -/
def span (first last : ℕ) : List ℕ := List.range' first (last + 1 - first)

/-- The indentation of the body, from its first statement. -/
def bodyIndent (lines : List (List Char)) (start finish : ℕ) (declLine : Option ℕ) : Option ℕ :=
  let bodyFrom := declLine.elim start (· + 1)
  (((span bodyFrom finish).map (lineAt lines)).find? fun l =>
    isCode l && !startsWith l "=begin").map indent

/-- Where a scan of a body stands: its runs, the first comment after them, and whether it is in a
block comment. -/
structure Scan where
  runs : List Run
  lead : Option ℕ
  inBlockComment : Bool
  deriving DecidableEq, Repr

/-- A statement, which opens a run or continues the last. -/
def statement (s : Scan) (opens : Bool) (this : Option String) (n : ℕ) : Scan :=
  let first := s.lead.getD n
  match s.runs.getLast? with
  | some run =>
    if !opens || this.isNone || run.kind = this then
      { s with runs := s.runs.dropLast ++ [{ run with last := n }], lead := none }
    else { s with runs := s.runs ++ [⟨first, n, this⟩], lead := none }
  | none => { s with runs := [⟨first, n, this⟩], lead := none }

/-- One line of a body. -/
def scanLine (lines : List (List Char)) (bodyIndent : ℕ) (s : Scan) (n : ℕ) : Scan :=
  let line := lineAt lines n
  if trim line = [] then s
  else if s.inBlockComment || startsWith line "=begin" || !isCode line then
    { s with
      inBlockComment :=
        if startsWith line "=begin" then true
        else if startsWith line "=end" then false
        else s.inBlockComment
      lead := some (s.lead.getD n) }
  else
    let text := trimStart line
    let opens := indent line = bodyIndent
      && !(["end".toList, ['\x7d'], [')'], [']']].contains text)
    statement s opens (kind isAlphanumeric text) n

/-- The letters and digits of some lines. -/
def wordChars (lines : List (List Char)) (first last : ℕ) : ℕ :=
  ((span first last).map fun n => (lineAt lines n).countP isAlphanumeric).sum

/-- A short first run of no known kind joins the one after it. -/
def absorbShortRuns (lines : List (List Char)) (declLine : Option ℕ) (minWordChars : ℕ) :
    List Run → List Run
  | ⟨first, last, none⟩ :: next :: rest =>
    if !declLine.any (fun d => first ≤ d && d ≤ last)
        && wordChars isAlphanumeric lines first last < minWordChars then
      { next with first := first } :: rest
    else ⟨first, last, none⟩ :: next :: rest
  | runs => runs

/-- The runs of the lines from `start` to `finish`. -/
def runs (lines : List (List Char)) (start finish : ℕ) (declLine : Option ℕ) (minWordChars : ℕ) :
    List Run :=
  match bodyIndent lines start finish declLine with
  | none => [⟨start, finish, none⟩]
  | some bodyIndent =>
    let s := (span start finish).foldl (scanLine isAlphanumeric lines bodyIndent) ⟨[], none, false⟩
    let closed := match s.runs.getLast? with
      | some run => s.runs.dropLast ++ [{ run with last := finish }]
      | none => [⟨start, finish, none⟩]
    absorbShortRuns isAlphanumeric lines declLine minWordChars closed

/-! ## No line is left out -/

/-- A run begins and ends no later than another. -/
def Run.Before (r r' : Run) : Prop := r.first ≤ r'.first ∧ r.last ≤ r'.last

/-- The runs stay within the lines they are cut from, in order, and every line that is not blank
lies in one. -/
structure Cover (lines : List (List Char)) (start finish : ℕ) (runs : List Run) : Prop where
  bounds : ∀ r ∈ runs, start ≤ r.first ∧ r.first ≤ r.last ∧ r.last ≤ finish
  ordered : runs.Pairwise Run.Before
  covered : ∀ n, start ≤ n → n ≤ finish → trim (lineAt lines n) ≠ [] →
    ∃ r ∈ runs, r.first ≤ n ∧ n ≤ r.last

/-- What holds of a scan that has come to the line `m`: what its runs leave out is blank, or
follows the comment that waits for the next statement. -/
structure ScanInv (lines : List (List Char)) (start m : ℕ) (s : Scan) : Prop where
  bounds : ∀ r ∈ s.runs, start ≤ r.first ∧ r.first ≤ r.last ∧ r.last < m
  ordered : s.runs.Pairwise Run.Before
  lead : ∀ l, s.lead = some l → start ≤ l ∧ l < m ∧ ∀ r ∈ s.runs, r.first ≤ l
  covered : ∀ n, start ≤ n → n < m → trim (lineAt lines n) ≠ [] →
    (∃ r ∈ s.runs, r.first ≤ n ∧ n ≤ r.last) ∨ ∃ l, s.lead = some l ∧ l ≤ n

variable {isAlphanumeric} {lines : List (List Char)} {start finish m : ℕ}
variable {run : Run}

theorem pairwise_extended {front : List Run} {b : ℕ} (h : (front ++ [run]).Pairwise Run.Before)
    (hb : run.last ≤ b) : (front ++ [{ run with last := b }]).Pairwise Run.Before := by
  rw [List.pairwise_append] at h ⊢
  refine ⟨h.1, List.pairwise_singleton _ _, fun r hr r' hr' => ?_⟩
  rw [List.mem_singleton] at hr'
  have hlast := h.2.2 r hr run (List.mem_singleton_self run)
  rw [hr']
  exact ⟨hlast.1, hlast.2.trans hb⟩

theorem exists_extended {front : List Run} {b n : ℕ} (hb : run.last ≤ b)
    (h : ∃ r ∈ front ++ [run], r.first ≤ n ∧ n ≤ r.last) :
    ∃ r ∈ front ++ [{ run with last := b }], r.first ≤ n ∧ n ≤ r.last := by
  obtain ⟨r, hr, hfirst, hlast⟩ := h
  rcases List.mem_append.mp hr with hfront | hrun
  · exact ⟨r, List.mem_append_left _ hfront, hfirst, hlast⟩
  · rw [List.mem_singleton] at hrun
    subst hrun
    exact ⟨_, List.mem_append_right _ (List.mem_singleton_self _), hfirst, hlast.trans hb⟩

theorem scanInv_start (lines : List (List Char)) (start : ℕ) :
    ScanInv lines start start ⟨[], none, false⟩ where
  bounds _ hr := absurd hr List.not_mem_nil
  ordered := List.Pairwise.nil
  lead _ hl := absurd hl (by simp)
  covered n hstart hlt := absurd hlt (by omega)

theorem eq_dropLast_append {runs : List Run} (h : runs.getLast? = some run) :
    runs = runs.dropLast ++ [run] := by
  obtain ⟨front, rfl⟩ := List.getLast?_eq_some_iff.mp h
  rw [List.dropLast_concat]

theorem ScanInv.statement {s : Scan} (h : ScanInv lines start m s) (hm : start ≤ m) (opens : Bool)
    (this : Option String) : ScanInv lines start (m + 1) (statement s opens this m) := by
  have hfirst : start ≤ s.lead.getD m ∧ s.lead.getD m ≤ m
      ∧ ∀ r ∈ s.runs, r.first ≤ s.lead.getD m := by
    cases hlead : s.lead with
    | none =>
      refine ⟨hm, le_refl m, fun r hr => ?_⟩
      have hbounds := h.bounds r hr
      show r.first ≤ m
      omega
    | some l =>
      obtain ⟨hstart, hlt, hruns⟩ := h.lead l hlead
      exact ⟨hstart, hlt.le, hruns⟩
  have hnew : ∀ n, start ≤ n → n < m + 1 → trim (lineAt lines n) ≠ [] →
      (∃ r ∈ s.runs, r.first ≤ n ∧ n ≤ r.last) ∨ s.lead.getD m ≤ n := by
    intro n hstart hlt hne
    rcases Nat.lt_or_ge n m with hold | hge
    · rcases h.covered n hstart hold hne with hrun | ⟨l, hl, hle⟩
      · exact .inl hrun
      · exact .inr (by rw [hl]; exact hle)
    · exact .inr (hfirst.2.1.trans hge)
  -- a new run begins at the comment, and the others end before this line
  have hpush : ScanInv lines start (m + 1)
      { s with runs := s.runs ++ [⟨s.lead.getD m, m, this⟩], lead := none } := by
    refine ⟨fun r hr => ?_, ?_, fun _ hl => absurd hl (by simp), fun n hstart hlt hne => .inl ?_⟩
    · rcases List.mem_append.mp hr with hold | hlast
      · have hbounds := h.bounds r hold
        omega
      · rw [List.mem_singleton.mp hlast]
        exact ⟨hfirst.1, hfirst.2.1, Nat.lt_succ_self m⟩
    · refine List.pairwise_append.mpr ⟨h.ordered, List.pairwise_singleton _ _, ?_⟩
      intro r hr r' hr'
      rw [List.mem_singleton.mp hr']
      exact ⟨hfirst.2.2 r hr, (h.bounds r hr).2.2.le⟩
    · rcases hnew n hstart hlt hne with ⟨r, hr, hrun⟩ | hle
      · exact ⟨r, List.mem_append_left _ hr, hrun⟩
      · exact ⟨_, List.mem_append_right _ (List.mem_singleton_self _), hle, Nat.le_of_lt_succ hlt⟩
  rw [RubyBody.statement]
  cases hlast : s.runs.getLast? with
  | none =>
    have hnil : s.runs = [] := List.getLast?_eq_none_iff.mp hlast
    rw [hnil] at hpush
    exact hpush
  | some run =>
    have hruns := eq_dropLast_append hlast
    have hrun : run ∈ s.runs := List.mem_of_getLast? hlast
    simp only
    split
    case isFalse => exact hpush
    case isTrue =>
      -- the last run is drawn out to this line, past the comment that waited
      have hbounds := h.bounds run hrun
      have hb : run.last ≤ m := hbounds.2.2.le
      refine ⟨fun r hr => ?_, ?_, fun _ hl => absurd hl (by simp), fun n hstart hlt hne => .inl ?_⟩
      · rcases List.mem_append.mp hr with hold | hext
        · have hold' := h.bounds r ((List.dropLast_sublist _).subset hold)
          omega
        · rw [List.mem_singleton.mp hext]
          exact ⟨hbounds.1, hbounds.2.1.trans hb, Nat.lt_succ_self m⟩
      · exact pairwise_extended (hruns ▸ h.ordered) hb
      · rcases hnew n hstart hlt hne with hold | hle
        · exact exists_extended hb (hruns ▸ hold)
        · exact ⟨_, List.mem_append_right _ (List.mem_singleton_self _),
            (hfirst.2.2 run hrun).trans hle, Nat.le_of_lt_succ hlt⟩

theorem ScanInv.scanLine {s : Scan} (h : ScanInv lines start m s) (hm : start ≤ m) (indent : ℕ) :
    ScanInv lines start (m + 1) (scanLine isAlphanumeric lines indent s m) := by
  rw [RubyBody.scanLine]
  split
  case isTrue hblank =>
    -- a blank line belongs to no run
    refine ⟨fun r hr => ?_, h.ordered, fun l hl => ?_, fun n hstart hlt hne => ?_⟩
    · have hbounds := h.bounds r hr
      omega
    · obtain ⟨hstart, hlt, hruns⟩ := h.lead l hl
      exact ⟨hstart, Nat.lt_succ_of_lt hlt, hruns⟩
    · rcases Nat.lt_or_ge n m with hold | hge
      · exact h.covered n hstart hold hne
      · have heq : n = m := by omega
        exact absurd hblank (heq ▸ hne)
  case isFalse =>
    split
    case isTrue =>
      -- a comment waits for the statement it leads to
      refine ⟨fun r hr => ?_, h.ordered, fun l hl => ?_, fun n hstart hlt hne => ?_⟩
      · have hbounds := h.bounds r hr
        omega
      · obtain rfl := Option.some.inj hl
        cases hlead : s.lead with
        | none =>
          refine ⟨hm, Nat.lt_succ_self m, fun r hr => ?_⟩
          have hbounds := h.bounds r hr
          show r.first ≤ m
          omega
        | some l =>
          obtain ⟨hstart, hlt, hruns⟩ := h.lead l hlead
          exact ⟨hstart, Nat.lt_succ_of_lt hlt, hruns⟩
      · rcases Nat.lt_or_ge n m with hold | hge
        · rcases h.covered n hstart hold hne with hrun | ⟨l, hl, hle⟩
          · exact .inl hrun
          · exact .inr ⟨l, by simp [hl], hle⟩
        · refine .inr ⟨_, rfl, ?_⟩
          cases hlead : s.lead with
          | none => exact hge
          | some l => exact (h.lead l hlead).2.1.le.trans hge
    case isFalse => exact h.statement hm _ _

theorem span_succ (h : start ≤ finish + 1) :
    span start (finish + 1) = span start finish ++ [finish + 1] := by
  rw [span, span, show finish + 1 + 1 - start = finish + 1 - start + 1 by omega,
    List.range'_concat]
  congr 2
  omega

theorem scanInv_foldl (indent : ℕ) (h : start ≤ finish + 1) : ScanInv lines start (finish + 1)
    ((span start finish).foldl (scanLine isAlphanumeric lines indent) ⟨[], none, false⟩) := by
  induction finish with
  | zero =>
    rcases Nat.eq_zero_or_pos start with rfl | hpos
    · exact (scanInv_start lines 0).scanLine (le_refl 0) indent
    · have hone : start = 1 := by omega
      subst hone
      exact scanInv_start lines 1
  | succ finish ih =>
    rcases Nat.lt_or_ge (finish + 1) start with hlt | hge
    · have heq : start = finish + 1 + 1 := by omega
      subst heq
      rw [span, Nat.sub_self]
      exact scanInv_start lines _
    · rw [span_succ hge, List.foldl_append]
      exact (ih hge).scanLine hge indent

theorem Cover.absorbShortRuns {runs : List Run} (declLine : Option ℕ) (minWordChars : ℕ)
    (h : Cover lines start finish runs) :
    Cover lines start finish
      (absorbShortRuns isAlphanumeric lines declLine minWordChars runs) := by
  rw [RubyBody.absorbShortRuns.eq_def]
  split
  · next first last next rest =>
    split
    case isFalse => exact h
    case isTrue =>
      have hfirst := h.bounds _ List.mem_cons_self
      have hnext := h.bounds next (List.mem_cons_of_mem _ List.mem_cons_self)
      obtain ⟨hbefore, hordered⟩ := List.pairwise_cons.mp h.ordered
      have hnextBefore := hbefore next List.mem_cons_self
      obtain ⟨hnextRest, hrest⟩ := List.pairwise_cons.mp hordered
      refine ⟨fun r hr => ?_, List.pairwise_cons.mpr ⟨fun r hr => ?_, hrest⟩,
        fun n hstart hle hne => ?_⟩
      · rcases List.mem_cons.mp hr with rfl | hr
        · exact ⟨hfirst.1, hnextBefore.1.trans hnext.2.1, hnext.2.2⟩
        · exact h.bounds r (List.mem_cons_of_mem _ (List.mem_cons_of_mem _ hr))
      · exact ⟨(hbefore r (List.mem_cons_of_mem _ hr)).1, (hnextRest r hr).2⟩
      · obtain ⟨r, hr, hrfirst, hrlast⟩ := h.covered n hstart hle hne
        rcases List.mem_cons.mp hr with rfl | hr
        · exact ⟨_, List.mem_cons_self, hrfirst, hrlast.trans hnextBefore.2⟩
        · rcases List.mem_cons.mp hr with rfl | hr
          · exact ⟨_, List.mem_cons_self, hnextBefore.1.trans hrfirst, hrlast⟩
          · exact ⟨r, List.mem_cons_of_mem _ hr, hrfirst, hrlast⟩
  · exact h

theorem cover_whole (h : start ≤ finish) : Cover lines start finish [⟨start, finish, none⟩] :=
  ⟨fun r hr => by rw [List.mem_singleton.mp hr]; exact ⟨le_refl _, h, le_refl _⟩,
    List.pairwise_singleton _ _,
    fun n hstart hle _ => ⟨_, List.mem_singleton_self _, hstart, hle⟩⟩

theorem cover_runs (lines : List (List Char)) (declLine : Option ℕ) (minWordChars : ℕ)
    (h : start ≤ finish) :
    Cover lines start finish (runs isAlphanumeric lines start finish declLine minWordChars) := by
  rw [runs]
  cases hindent : bodyIndent lines start finish declLine with
  | none => exact cover_whole h
  | some indent =>
    have hinv := @scanInv_foldl isAlphanumeric lines start finish indent (by omega)
    simp only
    generalize (span start finish).foldl (scanLine isAlphanumeric lines indent) ⟨[], none, false⟩
      = s at hinv ⊢
    refine Cover.absorbShortRuns declLine minWordChars ?_
    cases hlast : s.runs.getLast? with
    | none => exact cover_whole h
    | some run =>
      have hruns := eq_dropLast_append hlast
      have hrun := hinv.bounds run (List.mem_of_getLast? hlast)
      have hb : run.last ≤ finish := by omega
      refine ⟨fun r hr => ?_, pairwise_extended (hruns ▸ hinv.ordered) hb,
        fun n hstart hle hne => ?_⟩
      · rcases List.mem_append.mp hr with hold | hext
        · have hold' := hinv.bounds r ((List.dropLast_sublist _).subset hold)
          omega
        · rw [List.mem_singleton.mp hext]
          exact ⟨hrun.1, hrun.2.1.trans hb, le_refl finish⟩
      · rcases hinv.covered n hstart (by omega) hne with hold | ⟨l, hl, hln⟩
        · exact exists_extended hb (hruns ▸ hold)
        · exact ⟨_, List.mem_append_right _ (List.mem_singleton_self _),
            ((hinv.lead l hl).2.2 run (List.mem_of_getLast? hlast)).trans hln, hle⟩

end RubyBody
end Index
end Inkentry
