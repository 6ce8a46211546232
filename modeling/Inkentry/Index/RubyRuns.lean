/-
  Inkentry.Index.RubyRuns

  What the runs of a Ruby class body are: a partition of its lines into
  stretches of one kind.

  A line is a comment by what stands before it in the range (`InBlock`), not by
  the state of the scan; the scan agrees (`RunInv.block`), and keeps a comment
  until the statement after it takes it along (`RunInv.waiting`).
-/

import Inkentry.Index.RubyBody
import Mathlib.Data.List.Chain

namespace Inkentry
namespace Index
namespace RubyBody

open TextLines

/-! ## The law -/

variable (lines : List (List Char)) (start : ℕ)

/-- A block comment that was opened in the range has not been closed before the line. -/
def InBlock (n : ℕ) : Prop :=
  ∃ b, start ≤ b ∧ b < n ∧ startsWith (lineAt lines b) "=begin" = true
    ∧ ∀ e, b < e → e < n → startsWith (lineAt lines e) "=end" = false

def IsBlank (n : ℕ) : Prop := trim (lineAt lines n) = []

def IsComment (n : ℕ) : Prop :=
  ¬IsBlank lines n
    ∧ (InBlock lines start n ∨ startsWith (lineAt lines n) "=begin" = true
      ∨ isCode (lineAt lines n) = false)

def IsStatement (n : ℕ) : Prop := ¬IsBlank lines n ∧ ¬IsComment lines start n

/-- A comment and the first line of code after it. -/
structure Leads (c n : ℕ) : Prop where
  lt : c < n
  comment : IsComment lines start c
  statement : IsStatement lines start n
  first : ∀ k, c < k → k < n → ¬IsStatement lines start k

def Run.Holds (r : Run) (n : ℕ) : Prop := r.first ≤ n ∧ n ≤ r.last

/-- A run ends before another begins. -/
def Run.Ahead (r r' : Run) : Prop := r.last < r'.first

def Run.Differs (r r' : Run) : Prop := r.kind ≠ r'.kind

structure RunsLaw (finish : ℕ) (rs : List Run) : Prop where
  within : ∀ r ∈ rs, start ≤ r.first ∧ r.first ≤ r.last ∧ r.last ≤ finish
  apart : rs.Pairwise Run.Ahead
  covered : ∀ n, start ≤ n → n ≤ finish → ¬IsBlank lines n → ∃ r ∈ rs, r.Holds n
  known : ∀ r ∈ rs.tail, r.kind ≠ none
  changes : rs.IsChain Run.Differs
  comments : ∀ c n, start ≤ c → n ≤ finish → Leads lines start c n →
    ∃ r ∈ rs, r.Holds c ∧ r.Holds n

/-! ## Lists of runs -/

variable {lines start} {finish m : ℕ} {isAlphanumeric : Char → Bool}

section Lists

variable {front : List Run} {run : Run} {b : ℕ}

theorem apart_extended (h : (front ++ [run]).Pairwise Run.Ahead) :
    (front ++ [{ run with last := b }]).Pairwise Run.Ahead := by
  rw [List.pairwise_append] at h ⊢
  refine ⟨h.1, List.pairwise_singleton _ _, fun r hr r' hr' => ?_⟩
  rw [List.mem_singleton] at hr'
  subst hr'
  exact h.2.2 r hr run (List.mem_singleton_self run)

theorem known_extended (h : ∀ r ∈ (front ++ [run]).tail, r.kind ≠ none) :
    ∀ r ∈ (front ++ [{ run with last := b }]).tail, r.kind ≠ none := by
  cases front with
  | nil => exact fun r hr => absurd hr List.not_mem_nil
  | cons first front =>
    intro r hr
    rcases List.mem_append.mp hr with hold | hlast
    · exact h r (List.mem_append_left _ hold)
    · rw [List.mem_singleton.mp hlast]
      exact h run (List.mem_append_right _ (List.mem_singleton_self run))

theorem changes_extended (h : (front ++ [run]).IsChain Run.Differs) :
    (front ++ [{ run with last := b }]).IsChain Run.Differs := by
  rw [List.isChain_append] at h ⊢
  refine ⟨h.1, List.isChain_singleton _, fun r hr r' hr' => ?_⟩
  obtain rfl := Option.some.inj hr'
  exact h.2.2 r hr run rfl

theorem exists_holds_extended {c n : ℕ} (hb : run.last ≤ b)
    (h : ∃ r ∈ front ++ [run], r.Holds c ∧ r.Holds n) :
    ∃ r ∈ front ++ [{ run with last := b }], r.Holds c ∧ r.Holds n := by
  obtain ⟨r, hr, hc, hn⟩ := h
  rcases List.mem_append.mp hr with hold | hlast
  · exact ⟨r, List.mem_append_left _ hold, hc, hn⟩
  · rw [List.mem_singleton] at hlast
    subst hlast
    exact ⟨_, List.mem_append_right _ (List.mem_singleton_self _), ⟨hc.1, hc.2.trans hb⟩,
      ⟨hn.1, hn.2.trans hb⟩⟩

end Lists

/-! ## The scan -/

variable {s : Scan}

/-- What the line `m` finds: the runs so far, and of the comments after them the first. -/
structure RunInv (lines : List (List Char)) (start m : ℕ) (s : Scan) : Prop where
  apart : s.runs.Pairwise Run.Ahead
  fresh : ∀ l, s.lead = some l → ∀ r ∈ s.runs, r.last < l
  known : ∀ r ∈ s.runs.tail, r.kind ≠ none
  changes : s.runs.IsChain Run.Differs
  block : s.inBlockComment = true ↔ InBlock lines start m
  comments : ∀ c n, start ≤ c → n < m → Leads lines start c n → ∃ r ∈ s.runs, r.Holds c ∧ r.Holds n
  waiting : ∀ c, start ≤ c → c < m → IsComment lines start c →
    (∀ k, c < k → k < m → ¬IsStatement lines start k) → ∃ l, s.lead = some l ∧ l ≤ c

theorem runInv_start (lines : List (List Char)) (start : ℕ) : RunInv lines start start ⟨[], none, false⟩ where
  apart := List.Pairwise.nil
  fresh _ hl := absurd hl (by simp)
  known _ hr := absurd hr List.not_mem_nil
  changes := List.isChain_nil
  block := by
    constructor
    · exact fun h => absurd h (by decide)
    · rintro ⟨b, hstart, hlt, -⟩
      omega
  comments c n hstart hn hleads := by
    have := hleads.lt
    omega
  waiting c hstart hc := by omega

/-- A block comment goes on behind a line, unless the line ends it. -/
theorem inBlock_succ (hm : start ≤ m) : InBlock lines start (m + 1)
    ↔ startsWith (lineAt lines m) "=begin" = true
      ∨ (InBlock lines start m ∧ startsWith (lineAt lines m) "=end" = false) := by
  constructor
  · rintro ⟨b, hstart, hb, hbegin, hopen⟩
    rcases Nat.lt_or_ge b m with hlt | hge
    · exact .inr ⟨⟨b, hstart, hlt, hbegin, fun e he hem => hopen e he (by omega)⟩, hopen m hlt (by omega)⟩
    · have heq : b = m := by omega
      exact .inl (heq ▸ hbegin)
  · rintro (hbegin | ⟨⟨b, hstart, hb, hbegin, hopen⟩, hend⟩)
    · exact ⟨m, hm, Nat.lt_succ_self m, hbegin, fun e he hem => absurd he (by omega)⟩
    · refine ⟨b, hstart, by omega, hbegin, fun e he hem => ?_⟩
      rcases Nat.lt_or_ge e m with hlt | hge
      · exact hopen e he hlt
      · have heq : e = m := by omega
        exact heq ▸ hend

theorem not_startsWith_of_blank {n : ℕ} (h : IsBlank lines n) (c : Char) (hc : isWhitespace c = false)
    (pattern : List Char) : startsWith (lineAt lines n) (String.ofList (c :: pattern)) = false := by
  refine eq_false_of_ne_true fun hstart => ?_
  rw [startsWith, String.toList_ofList] at hstart
  obtain ⟨rest, hrest⟩ := List.isPrefixOf_iff_prefix.mp hstart
  have hall := trim_eq_nil_iff.mp h c (by rw [← hrest]; exact List.mem_cons_self)
  rw [hc] at hall
  cases hall

theorem RunInv.blank (h : RunInv lines start m s) (hm : start ≤ m)
    (hblank : IsBlank lines m) : RunInv lines start (m + 1) s where
  apart := h.apart
  fresh := h.fresh
  known := h.known
  changes := h.changes
  block := by
    have hbegin : startsWith (lineAt lines m) "=begin" = false :=
      not_startsWith_of_blank hblank '=' (by decide) "begin".toList
    have hend : startsWith (lineAt lines m) "=end" = false :=
      not_startsWith_of_blank hblank '=' (by decide) "end".toList
    rw [inBlock_succ hm, hbegin, hend, ← h.block]
    simp
  comments c n hstart hn hleads := by
    rcases Nat.lt_or_ge n m with hlt | hge
    · exact h.comments c n hstart hlt hleads
    · have heq : n = m := by omega
      exact absurd (heq ▸ hblank) hleads.statement.1
  waiting c hstart hc hcomment hnone := by
    rcases Nat.lt_or_ge c m with hlt | hge
    · exact h.waiting c hstart hlt hcomment fun k hk hkm => hnone k hk (by omega)
    · have heq : c = m := by omega
      exact absurd (heq ▸ hblank) hcomment.1

theorem RunInv.comment (h : RunInv lines start m s) (hscan : ScanInv lines start m s)
    (hm : start ≤ m) (hcomment : IsComment lines start m) :
    RunInv lines start (m + 1)
      { s with
        inBlockComment :=
          if startsWith (lineAt lines m) "=begin" then true
          else if startsWith (lineAt lines m) "=end" then false
          else s.inBlockComment
        lead := some (s.lead.getD m) } where
  apart := h.apart
  fresh l hl r hr := by
    obtain rfl := Option.some.inj hl
    cases hlead : s.lead with
    | none => exact (hscan.bounds r hr).2.2
    | some l => exact h.fresh l hlead r hr
  known := h.known
  changes := h.changes
  block := by
    rw [inBlock_succ hm, ← h.block]
    cases hbegin : startsWith (lineAt lines m) "=begin" with
    | true => simp
    -- a block that opens stays open for this line, and one that closes is over
    | false => cases hend : startsWith (lineAt lines m) "=end" <;> simp
  comments c n hstart hn hleads := by
    rcases Nat.lt_or_ge n m with hlt | hge
    · exact h.comments c n hstart hlt hleads
    · have heq : n = m := by omega
      exact absurd (heq ▸ hcomment) hleads.statement.2
  waiting c hstart hc hc' hnone := by
    refine ⟨_, rfl, ?_⟩
    rcases Nat.lt_or_ge c m with hlt | hge
    · obtain ⟨l, hl, hle⟩ := h.waiting c hstart hlt hc' fun k hk hkm => hnone k hk (by omega)
      rw [hl]
      exact hle
    · cases hlead : s.lead with
      | none => exact hge
      | some l => exact ((hscan.lead l hlead).2.1.le).trans hge

/-- A statement takes along the comments before it, into its own run or into the last one. -/
theorem RunInv.statement (h : RunInv lines start m s) (hscan : ScanInv lines start m s)
    (hm : start ≤ m) (hstatement : IsStatement lines start m) (opens : Bool)
    (this : Option String) : RunInv lines start (m + 1) (statement s opens this m) := by
  have hblock : s.inBlockComment = true ↔ InBlock lines start (m + 1) := by
    have hnot : ¬InBlock lines start m := fun hin =>
      hstatement.2 ⟨hstatement.1, .inl hin⟩
    have hbegin : startsWith (lineAt lines m) "=begin" ≠ true := fun hbegin =>
      hstatement.2 ⟨hstatement.1, .inr (.inl hbegin)⟩
    rw [inBlock_succ hm, h.block]
    simp [hnot, hbegin]
  have hwaiting : ∀ c, start ≤ c → c < m + 1 → IsComment lines start c →
      (∀ k, c < k → k < m + 1 → ¬IsStatement lines start k) → ∃ l, (none : Option ℕ) = some l ∧ l ≤ c := by
    intro c hstart hc hcomment hnone
    rcases Nat.lt_or_ge c m with hlt | hge
    · exact absurd hstatement (hnone m hlt (Nat.lt_succ_self m))
    · have heq : c = m := by omega
      exact absurd (heq ▸ hcomment) hstatement.2
  -- the comments that lead to this line wait since the first of them
  have hlead : ∀ c, start ≤ c → Leads lines start c m → s.lead.getD m ≤ c := by
    intro c hstart hleads
    obtain ⟨l, hl, hle⟩ := h.waiting c hstart hleads.lt hleads.comment hleads.first
    rw [hl]
    exact hle
  have hfirst : s.lead.getD m ≤ m ∧ (∀ r ∈ s.runs, r.first ≤ s.lead.getD m)
      ∧ ∀ r ∈ s.runs, r.last < s.lead.getD m := by
    cases hl : s.lead with
    | none =>
      refine ⟨le_refl m, fun r hr => ?_, fun r hr => (hscan.bounds r hr).2.2⟩
      have := hscan.bounds r hr
      show r.first ≤ m
      omega
    | some l => exact ⟨(hscan.lead l hl).2.1.le, (hscan.lead l hl).2.2, h.fresh l hl⟩
  -- a run of its own begins at the first comment
  have hpush : (∀ r ∈ (s.runs ++ [Run.mk (s.lead.getD m) m this]).tail, r.kind ≠ none) →
      (s.runs ++ [Run.mk (s.lead.getD m) m this]).IsChain Run.Differs →
      RunInv lines start (m + 1) { s with runs := s.runs ++ [⟨s.lead.getD m, m, this⟩], lead := none } := by
    intro hknown hchanges
    refine ⟨?_, fun _ hl => absurd hl (by simp), hknown, hchanges, hblock, ?_, hwaiting⟩
    · refine List.pairwise_append.mpr ⟨h.apart, List.pairwise_singleton _ _, fun r hr r' hr' => ?_⟩
      rw [List.mem_singleton.mp hr']
      exact hfirst.2.2 r hr
    · intro c n hstart hn hleads
      rcases Nat.lt_or_ge n m with hlt | hge
      · obtain ⟨r, hr, hholds⟩ := h.comments c n hstart hlt hleads
        exact ⟨r, List.mem_append_left _ hr, hholds⟩
      · have heq : n = m := by omega
        subst heq
        exact ⟨_, List.mem_append_right _ (List.mem_singleton_self _),
          ⟨hlead c hstart hleads, hleads.lt.le⟩, ⟨hfirst.1, le_refl n⟩⟩
  rw [RubyBody.statement]
  cases hlast : s.runs.getLast? with
  | none =>
    have hnil : s.runs = [] := List.getLast?_eq_none_iff.mp hlast
    rw [hnil] at hpush
    exact hpush (fun r hr => absurd hr List.not_mem_nil) (List.isChain_singleton _)
  | some run =>
    have hruns := eq_dropLast_append hlast
    have hrun : run ∈ s.runs := List.mem_of_getLast? hlast
    simp only
    split
    case isFalse hnew =>
      have hthis : this.isNone = false ∧ run.kind ≠ this := by
        simp only [Bool.or_eq_true, decide_eq_true_eq, not_or, Bool.not_eq_true] at hnew
        exact ⟨hnew.1.2, hnew.2⟩
      have hne : s.runs ≠ [] := List.ne_nil_of_mem hrun
      refine hpush (fun r hr => ?_) ?_
      · rw [List.tail_append_of_ne_nil hne] at hr
        rcases List.mem_append.mp hr with hold | hlast
        · exact h.known r hold
        · rw [List.mem_singleton.mp hlast]
          exact Option.isNone_eq_false_iff.mp hthis.1 |> Option.isSome_iff_ne_none.mp
      · refine List.isChain_append.mpr ⟨h.changes, List.isChain_singleton _, fun r hr r' hr' => ?_⟩
        obtain rfl := Option.some.inj hr'
        rw [hlast] at hr
        obtain rfl := Option.some.inj hr
        exact hthis.2
    case isTrue =>
      have hb : run.last ≤ m := (hscan.bounds run hrun).2.2.le
      refine ⟨apart_extended (hruns ▸ h.apart), fun _ hl => absurd hl (by simp),
        known_extended (hruns ▸ h.known), changes_extended (hruns ▸ h.changes), hblock, ?_, hwaiting⟩
      intro c n hstart hn hleads
      rcases Nat.lt_or_ge n m with hlt | hge
      · exact exists_holds_extended hb (hruns ▸ h.comments c n hstart hlt hleads)
      · have heq : n = m := by omega
        subst heq
        exact ⟨_, List.mem_append_right _ (List.mem_singleton_self _),
          ⟨(hfirst.2.1 run hrun).trans (hlead c hstart hleads), hleads.lt.le⟩,
          ⟨(hfirst.2.1 run hrun).trans hfirst.1, le_refl n⟩⟩

theorem RunInv.scanLine (h : RunInv lines start m s) (hscan : ScanInv lines start m s)
    (hm : start ≤ m) (indent : ℕ) :
    RunInv lines start (m + 1) (scanLine isAlphanumeric lines indent s m) := by
  rw [RubyBody.scanLine]
  split
  case isTrue hblank => exact h.blank hm hblank
  case isFalse hblank =>
    have hcomment : IsComment lines start m
        ↔ (s.inBlockComment || startsWith (lineAt lines m) "=begin" || !isCode (lineAt lines m)) = true := by
      simp [IsComment, IsBlank, hblank, h.block, or_assoc]
    split
    case isTrue hc => exact h.comment hscan hm (hcomment.mpr hc)
    case isFalse hc => exact h.statement hscan hm ⟨hblank, fun hin => hc (hcomment.mp hin)⟩ _ _

theorem runInv_foldl (indent : ℕ) (h : start ≤ finish + 1) : RunInv lines start (finish + 1)
    ((span start finish).foldl (scanLine isAlphanumeric lines indent) ⟨[], none, false⟩) := by
  induction finish with
  | zero =>
    rcases Nat.eq_zero_or_pos start with rfl | hpos
    · exact (runInv_start lines 0).scanLine (scanInv_start lines 0) (le_refl 0) indent
    · have hone : start = 1 := by omega
      subst hone
      exact runInv_start lines 1
  | succ finish ih =>
    rcases Nat.lt_or_ge (finish + 1) start with hlt | hge
    · have heq : start = finish + 1 + 1 := by omega
      subst heq
      rw [span, Nat.sub_self]
      exact runInv_start lines _
    · rw [span_succ hge, List.foldl_append]
      exact (ih hge).scanLine (scanInv_foldl indent hge) hge indent

/-! ## A short first run -/

variable {rs : List Run}

structure InOrder (rs : List Run) : Prop where
  proper : ∀ r ∈ rs, r.first ≤ r.last
  apart : rs.Pairwise Run.Ahead

theorem exists_holds_absorbShortRuns (declLine : Option ℕ) (minWordChars : ℕ) (hrs : InOrder rs)
    {c n : ℕ} (h : ∃ r ∈ rs, r.Holds c ∧ r.Holds n) :
    ∃ r ∈ absorbShortRuns isAlphanumeric lines declLine minWordChars rs, r.Holds c ∧ r.Holds n := by
  rw [RubyBody.absorbShortRuns.eq_def]
  split
  · next first last next rest =>
    split
    case isFalse => exact h
    case isTrue =>
      have hfirst : first ≤ last := hrs.proper _ List.mem_cons_self
      have hnext := hrs.proper next (List.mem_cons_of_mem _ List.mem_cons_self)
      have hahead : last < next.first := List.rel_of_pairwise_cons hrs.apart List.mem_cons_self
      obtain ⟨r, hr, hc, hn⟩ := h
      rcases List.mem_cons.mp hr with rfl | hr
      · have hgrow : ∀ i, first ≤ i ∧ i ≤ last → first ≤ i ∧ i ≤ next.last :=
          fun i hi => ⟨hi.1, by omega⟩
        exact ⟨_, List.mem_cons_self, hgrow c hc, hgrow n hn⟩
      · rcases List.mem_cons.mp hr with rfl | hr
        · have hgrow : ∀ i, r.first ≤ i ∧ i ≤ r.last → first ≤ i ∧ i ≤ r.last :=
            fun i hi => ⟨by omega, hi.2⟩
          exact ⟨_, List.mem_cons_self, hgrow c hc, hgrow n hn⟩
        · exact ⟨r, List.mem_cons_of_mem _ hr, hc, hn⟩
  · exact h

theorem apart_absorbShortRuns (declLine : Option ℕ) (minWordChars : ℕ) (h : rs.Pairwise Run.Ahead) :
    (absorbShortRuns isAlphanumeric lines declLine minWordChars rs).Pairwise Run.Ahead := by
  rw [RubyBody.absorbShortRuns.eq_def]
  split
  · split
    case isFalse => exact h
    case isTrue =>
      obtain ⟨-, htail⟩ := List.pairwise_cons.mp h
      obtain ⟨hnext, hrest⟩ := List.pairwise_cons.mp htail
      exact List.pairwise_cons.mpr ⟨hnext, hrest⟩
  · exact h

theorem known_absorbShortRuns (declLine : Option ℕ) (minWordChars : ℕ)
    (h : ∀ r ∈ rs.tail, r.kind ≠ none) :
    ∀ r ∈ (absorbShortRuns isAlphanumeric lines declLine minWordChars rs).tail, r.kind ≠ none := by
  rw [RubyBody.absorbShortRuns.eq_def]
  split
  · split
    case isFalse => exact h
    case isTrue => exact fun r hr => h r (List.mem_cons_of_mem _ hr)
  · exact h

theorem changes_absorbShortRuns (declLine : Option ℕ) (minWordChars : ℕ)
    (h : rs.IsChain Run.Differs) :
    (absorbShortRuns isAlphanumeric lines declLine minWordChars rs).IsChain Run.Differs := by
  rw [RubyBody.absorbShortRuns.eq_def]
  split
  · next first last next rest =>
    split
    case isFalse => exact h
    case isTrue =>
      have htail : (next :: rest).IsChain Run.Differs := h.of_cons
      cases rest with
      | nil => exact List.isChain_singleton _
      | cons r rest =>
        rw [List.isChain_cons_cons] at htail ⊢
        exact htail
  · exact h

/-! ## The runs -/

/-- The runs are in order and apart, hold every line that is not blank, differ in kind from one to
the next, and keep a comment with the statement after it; and whatever run is absorbed, no line is
lost. -/
theorem runs_law (isAlphanumeric : Char → Bool) (lines : List (List Char)) (declLine : Option ℕ)
    (minWordChars : ℕ) (h : start ≤ finish) :
    RunsLaw lines start finish (runs isAlphanumeric lines start finish declLine minWordChars)
      ∧ ∀ rs, InOrder rs → ∀ n, (∃ r ∈ rs, r.Holds n) →
          ∃ r ∈ absorbShortRuns isAlphanumeric lines declLine minWordChars rs, r.Holds n := by
  have hcover := @cover_runs isAlphanumeric start finish lines declLine minWordChars h
  refine ⟨?_, fun rs hrs n ⟨r, hr, hn⟩ => ?_⟩
  · have hwhole : ∀ c n, start ≤ c → n ≤ finish → Leads lines start c n →
        ∃ r ∈ [Run.mk start finish none], r.Holds c ∧ r.Holds n := by
      intro c n hstart hn hleads
      have hlt := hleads.lt
      exact ⟨_, List.mem_singleton_self _, ⟨hstart, by show c ≤ finish; omega⟩,
        ⟨by show start ≤ n; omega, hn⟩⟩
    have hlaw : (runs isAlphanumeric lines start finish declLine minWordChars).Pairwise Run.Ahead
        ∧ (∀ r ∈ (runs isAlphanumeric lines start finish declLine minWordChars).tail, r.kind ≠ none)
        ∧ (runs isAlphanumeric lines start finish declLine minWordChars).IsChain Run.Differs
        ∧ ∀ c n, start ≤ c → n ≤ finish → Leads lines start c n →
          ∃ r ∈ runs isAlphanumeric lines start finish declLine minWordChars, r.Holds c ∧ r.Holds n := by
      rw [runs]
      cases bodyIndent lines start finish declLine with
      | none =>
        exact ⟨List.pairwise_singleton _ _, fun r hr => absurd hr List.not_mem_nil,
          List.isChain_singleton _, hwhole⟩
      | some indent =>
        have hscan := @scanInv_foldl isAlphanumeric lines start finish indent (by omega)
        have hinv := @runInv_foldl lines start finish isAlphanumeric indent (by omega)
        simp only
        generalize (span start finish).foldl (scanLine isAlphanumeric lines indent) ⟨[], none, false⟩
          = s at hscan hinv ⊢
        cases hlast : s.runs.getLast? with
        | none =>
          exact ⟨List.pairwise_singleton _ _, fun r hr => absurd hr List.not_mem_nil,
            List.isChain_singleton _, hwhole⟩
        | some run =>
          have hruns := eq_dropLast_append hlast
          have hrun := hscan.bounds run (List.mem_of_getLast? hlast)
          have hb : run.last ≤ finish := by omega
          -- the last run is drawn out to the end of the range
          have hapart : (s.runs.dropLast ++ [{ run with last := finish }]).Pairwise Run.Ahead :=
            apart_extended (hruns ▸ hinv.apart)
          have hproper : InOrder (s.runs.dropLast ++ [{ run with last := finish }]) := by
            refine ⟨fun r hr => ?_, hapart⟩
            rcases List.mem_append.mp hr with hold | hext
            · exact (hscan.bounds r ((List.dropLast_sublist _).subset hold)).2.1
            · rw [List.mem_singleton.mp hext]
              exact hrun.2.1.trans hb
          refine ⟨apart_absorbShortRuns _ _ hapart,
            known_absorbShortRuns _ _ (known_extended (hruns ▸ hinv.known)),
            changes_absorbShortRuns _ _ (changes_extended (hruns ▸ hinv.changes)), ?_⟩
          intro c n hstart hn hleads
          exact exists_holds_absorbShortRuns _ _ hproper
            (exists_holds_extended hb (hruns ▸ hinv.comments c n hstart (by omega) hleads))
    exact ⟨hcover.bounds, hlaw.1, hcover.covered, hlaw.2.1, hlaw.2.2.1, hlaw.2.2.2⟩
  · obtain ⟨r', hr', hn', -⟩ := exists_holds_absorbShortRuns declLine minWordChars hrs ⟨r, hr, hn, hn⟩
    exact ⟨r', hr', hn'⟩

def invoiceLines : List (List Char) :=
  ["class Invoice < ApplicationRecord".toList, "  has_many :fees".toList,
    "  # what an invoice is paid with".toList, "  belongs_to :card".toList, "  validates :total".toList]

example : runs Char.isAlphanum invoiceLines 1 5 (some 1) 16
    = [⟨1, 1, none⟩, ⟨2, 4, some "associations"⟩, ⟨5, 5, some "validations"⟩] := by decide +kernel

theorem runs_law_invoice :
    RunsLaw invoiceLines 1 5 (runs Char.isAlphanum invoiceLines 1 5 (some 1) 16)
      ∧ ∀ rs, InOrder rs → ∀ n, (∃ r ∈ rs, r.Holds n) →
          ∃ r ∈ absorbShortRuns Char.isAlphanum invoiceLines (some 1) 16 rs, r.Holds n :=
  runs_law Char.isAlphanum invoiceLines (some 1) 16 (by decide)

end RubyBody
end Index
end Inkentry
