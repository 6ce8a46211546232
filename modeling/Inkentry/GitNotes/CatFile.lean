/-
  Inkentry.GitNotes.CatFile

  The output of `git cat-file --batch`, split into one body for each object that
  was asked for: a header line, and for an object that is there its bytes and a
  line feed.

  What is read is exactly a sequence of frames (`parse_eq_ok_iff`): a body is
  read as text, a line of two words as an empty body, and the byte behind a body
  is not looked at.
-/

import Mathlib.Algebra.GroupWithZero.Nat
import Inkentry.Lib.TextLines
import Inkentry.Lib.Utf8

namespace Inkentry
namespace CatFile

/-! ## The code -/

def USIZE_MAX : ℕ := 18446744073709551615

/-- `str::parse::<usize>`: digits, with a plus sign in front or none. -/
def parseUsize (text : List Char) : Option ℕ :=
  let digits := if text.head? = some '+' then text.tail else text
  if digits = [] ∨ digits.any (!·.isDigit) then none
  else if Nat.ofDigitChars 10 digits 0 ≤ USIZE_MAX then some (Nat.ofDigitChars 10 digits 0)
  else none

inductive Failure where
  | error (message : String)
  | panicked
  deriving DecidableEq, Repr

/-- The words of a header line. -/
def fields (header : List UInt8) : List (List Char) := (Utf8.lossy header).splitOn ' '

/-- `parse_cat_file_batch`; `debug` shows a text as `{:?}` does. -/
def parseCatFileBatch (debug : List Char → String) : List UInt8 → Except Failure (List (List Char))
  | [] => .ok []
  | first :: bytes =>
    match (first :: bytes).findIdx? (· == 10) with
    | none => .error (.error "git cat-file --batch: header with no newline")
    | some nl =>
      let header := (first :: bytes).take nl
      let rest := bytes.drop nl
      match fields header with
      | [_, _] => (parseCatFileBatch debug rest).map ([] :: ·)
      | [_, _, size] =>
        match parseUsize size with
        | none => .error (.error ("git cat-file --batch: bad size in " ++ debug (Utf8.lossy header)))
        | some size =>
          -- `size + 1` overflows; where it wraps to zero, the slice up to `size` is out of range
          if size = USIZE_MAX then .error .panicked
          else if rest.length < size + 1 then .error (.error "git cat-file --batch: truncated body")
          else (parseCatFileBatch debug (rest.drop (size + 1))).map (Utf8.lossy (rest.take size) :: ·)
      | _ => .error (.error ("git cat-file --batch: unexpected header " ++ debug (Utf8.lossy header)))
termination_by out => out.length
decreasing_by
  all_goals
    simp only [List.length_drop, List.length_cons]
    omega

/-! ## What git writes -/

/-- A word of a header. -/
structure Word where
  text : List Char
  plain : ' ' ∉ text ∧ '\n' ∉ text

/-- What is written for an object: its kind and its bytes, or that it is missing. -/
inductive Reply where
  | present (name kind : Word) (body : List UInt8)
  | missing (name : Word)

def Reply.header : Reply → List Char
  | present name kind body => name.text ++ ' ' :: (kind.text ++ ' ' :: Nat.toDigits 10 body.length)
  | missing name => name.text ++ ' ' :: "missing".toList

def Reply.tail : Reply → List UInt8
  | present _ _ body => body ++ [10]
  | missing _ => []

def Reply.frame (r : Reply) : List UInt8 := Utf8.encode r.header ++ 10 :: r.tail

def stream (replies : List Reply) : List UInt8 := replies.flatMap Reply.frame

/-- A slice is no longer than `isize::MAX`. -/
def FitsSlice (bytes : List UInt8) : Prop := bytes.length < 2 ^ 63

/-- What an object is, if it is there. -/
def Reply.body : Reply → Option (List UInt8)
  | present _ _ body => some body
  | missing _ => none

/-- What is read of a reply. -/
def Reply.text : Reply → List Char
  | present _ _ body => Utf8.lossy body
  | missing _ => []

/-- The entries tell the bodies and the misses that were written. -/
def Inverts (debug : List Char → String) : Prop :=
  ∃ read : List Char → Option (List UInt8), ∀ replies, FitsSlice (stream replies) →
    ∃ entries, parseCatFileBatch debug (stream replies) = .ok entries
      ∧ entries.map read = replies.map Reply.body

/-! ## Frames -/

/-- Complete entries, one behind the other. -/
inductive Frames : List UInt8 → List (List Char) → Prop where
  | nil : Frames [] []
  | miss {header rest : List UInt8} {bodies : List (List Char)} {name reason : List Char}
      (hlf : 10 ∉ header) (hfields : fields header = [name, reason]) (hrest : Frames rest bodies) :
      Frames (header ++ 10 :: rest) ([] :: bodies)
  | body {header body rest : List UInt8} {last : UInt8} {bodies : List (List Char)}
      {name kind size : List Char} (hlf : 10 ∉ header) (hfields : fields header = [name, kind, size])
      (hsize : parseUsize size = some body.length) (hfits : body.length ≠ USIZE_MAX)
      (hrest : Frames rest bodies) :
      Frames (header ++ 10 :: (body ++ last :: rest)) (Utf8.lossy body :: bodies)

/-- Behind complete entries, a header declares the largest size there is. -/
def HugeAt (out : List UInt8) : Prop :=
  ∃ front header rest bodies name kind size, out = front ++ (header ++ 10 :: rest) ∧ Frames front bodies
    ∧ 10 ∉ header ∧ fields header = [name, kind, size] ∧ parseUsize size = some USIZE_MAX

variable {debug : List Char → String} {header rest out : List UInt8} {bodies : List (List Char)}

/-! ## One header -/

/-- What a header brings, from its words and the bytes behind it. -/
def afterHeader (debug : List Char → String) (header rest : List UInt8) :
    Except Failure (List (List Char)) :=
  match fields header with
  | [_, _] => (parseCatFileBatch debug rest).map ([] :: ·)
  | [_, _, size] =>
    match parseUsize size with
    | none => .error (.error ("git cat-file --batch: bad size in " ++ debug (Utf8.lossy header)))
    | some size =>
      if size = USIZE_MAX then .error .panicked
      else if rest.length < size + 1 then .error (.error "git cat-file --batch: truncated body")
      else (parseCatFileBatch debug (rest.drop (size + 1))).map (Utf8.lossy (rest.take size) :: ·)
  | _ => .error (.error ("git cat-file --batch: unexpected header " ++ debug (Utf8.lossy header)))

theorem parse_line (hlf : 10 ∉ header) (rest : List UInt8) :
    parseCatFileBatch debug (header ++ 10 :: rest) = afterHeader debug header rest := by
  have hindex : (header ++ 10 :: rest).findIdx? (· == 10) = some header.length := by
    have hnone : header.findIdx? (· == 10) = none :=
      List.findIdx?_eq_none_iff.mpr fun b hb => beq_eq_false_iff_ne.mpr fun heq => hlf (heq ▸ hb)
    rw [List.findIdx?_append, hnone, List.findIdx?_cons]
    simp
  cases hout : header ++ 10 :: rest with
  | nil => simp at hout
  | cons first bytes =>
    have htake : (first :: bytes).take header.length = header := by
      rw [← hout, List.take_left]
    have hdrop : bytes.drop header.length = rest := by
      have hbehind : (header ++ 10 :: rest).drop (header.length + 1) = rest := by
        rw [← List.drop_drop, List.drop_left]
        rfl
      rw [hout] at hbehind
      exact hbehind
    rw [hout] at hindex
    rw [parseCatFileBatch, hindex]
    simp only [htake, hdrop]
    rfl

theorem parse_of_no_line (hne : out ≠ []) (hlf : 10 ∉ out) :
    parseCatFileBatch debug out = .error (.error "git cat-file --batch: header with no newline") := by
  obtain ⟨first, bytes, rfl⟩ := List.exists_cons_of_ne_nil hne
  have hindex : (first :: bytes).findIdx? (· == 10) = none :=
    List.findIdx?_eq_none_iff.mpr fun b hb => beq_eq_false_iff_ne.mpr fun heq => hlf (heq ▸ hb)
  rw [parseCatFileBatch, hindex]

theorem exists_line (out : List UInt8) :
    10 ∉ out ∨ ∃ header rest, 10 ∉ header ∧ out = header ++ 10 :: rest := by
  by_cases hmem : 10 ∈ out
  · obtain ⟨header, rest, hsplit, hlf⟩ := List.eq_append_cons_of_mem hmem
    exact .inr ⟨header, rest, hlf, hsplit⟩
  · exact .inl hmem

theorem parse_miss {name reason : List Char} (hlf : 10 ∉ header) (hfields : fields header = [name, reason])
    (rest : List UInt8) :
    parseCatFileBatch debug (header ++ 10 :: rest) = (parseCatFileBatch debug rest).map ([] :: ·) := by
  rw [parse_line hlf, afterHeader, hfields]

/-- A header with a size takes that many bytes and one more, if they are there. -/
theorem parse_body {name kind size : List Char} {n : ℕ} (hlf : 10 ∉ header)
    (hfields : fields header = [name, kind, size]) (hsize : parseUsize size = some n) (hn : n ≠ USIZE_MAX)
    (rest : List UInt8) :
    parseCatFileBatch debug (header ++ 10 :: rest)
      = if rest.length < n + 1 then .error (.error "git cat-file --batch: truncated body")
        else (parseCatFileBatch debug (rest.drop (n + 1))).map (Utf8.lossy (rest.take n) :: ·) := by
  rw [parse_line hlf, afterHeader, hfields]
  simp only [hsize, if_neg hn]

/-! ## What is read -/

theorem parse_of_frames (h : Frames out bodies) : parseCatFileBatch debug out = .ok bodies := by
  induction h with
  | nil => rw [parseCatFileBatch]
  | miss hlf hfields _ ih => rw [parse_miss hlf hfields, ih]; rfl
  | @body header body rest last bodies _ _ _ hlf hfields hsize hfits _ ih =>
    have hlength : ¬(body ++ last :: rest).length < body.length + 1 := by
      rw [List.length_append, List.length_cons]
      omega
    have hdrop : (body ++ last :: rest).drop (body.length + 1) = rest := by
      rw [← List.drop_drop, List.drop_left]
      rfl
    rw [parse_body hlf hfields hsize hfits, if_neg hlength, hdrop, ih, List.take_left]
    rfl

/-- What a header brings is frames, or an error, or the largest size. -/
theorem afterHeader_cases (hlf : 10 ∉ header)
    (ih : ∀ rest', rest'.length ≤ rest.length →
      (∃ bodies, parseCatFileBatch debug rest' = .ok bodies ∧ Frames rest' bodies)
        ∨ (∃ message, parseCatFileBatch debug rest' = .error (.error message))
        ∨ (parseCatFileBatch debug rest' = .error .panicked ∧ HugeAt rest')) :
    (∃ bodies, afterHeader debug header rest = .ok bodies ∧ Frames (header ++ 10 :: rest) bodies)
      ∨ (∃ message, afterHeader debug header rest = .error (.error message))
      ∨ (afterHeader debug header rest = .error .panicked ∧ HugeAt (header ++ 10 :: rest)) := by
  rw [afterHeader]
  split
  -- an object that is missing: two fields, and no body
  · next name reason hfields =>
    rcases ih rest le_rfl with ⟨bodies, hok, hframes⟩ | ⟨message, herror⟩ | ⟨hpanicked, hhuge⟩
    · exact .inl ⟨[] :: bodies, by rw [hok]; rfl, .miss hlf hfields hframes⟩
    · exact .inr (.inl ⟨message, by rw [herror]; rfl⟩)
    · obtain ⟨front, header', rest', bodies, a, b, c, rfl, hframes, htail⟩ := hhuge
      refine .inr (.inr ⟨by rw [hpanicked]; rfl, ?_⟩)
      exact ⟨header ++ 10 :: front, header', rest', [] :: bodies, a, b, c, by simp,
        .miss hlf hfields hframes, htail⟩
  -- three fields: the size, the body and the byte after it
  · next name kind size hfields =>
    cases hsize : parseUsize size with
    | none => exact .inr (.inl ⟨_, rfl⟩)
    | some n =>
      simp only
      split
      -- the end of the body overflows, which a debug build does not survive
      case isTrue hmax =>
        exact .inr (.inr
          ⟨rfl, [], header, rest, [], name, kind, size, rfl, .nil, hlf, hfields, hmax ▸ hsize⟩)
      case isFalse hmax =>
        split
        case isTrue => exact .inr (.inl ⟨_, rfl⟩)
        case isFalse hlength =>
          obtain ⟨last, back, hback⟩ := List.exists_cons_of_length_pos (l := rest.drop n)
            (by rw [List.length_drop]; omega)
          have hdrop : rest.drop (n + 1) = back := by rw [← List.drop_drop, hback]; rfl
          have hsplit : rest = rest.take n ++ last :: back := by rw [← hback, List.take_append_drop]
          have htake : (rest.take n).length = n := by rw [List.length_take]; omega
          have hframe : ∀ {back bodies}, Frames back bodies →
              Frames (header ++ 10 :: (rest.take n ++ last :: back)) (Utf8.lossy (rest.take n) :: bodies) :=
            fun hframes => .body hlf hfields (htake.symm ▸ hsize) (htake.symm ▸ hmax) hframes
          rw [hdrop]
          rcases ih back (by rw [← hdrop, List.length_drop]; omega) with
            ⟨bodies, hok, hframes⟩ | ⟨message, herror⟩ | ⟨hpanicked, hhuge⟩
          · refine .inl ⟨_, by rw [hok]; rfl, ?_⟩
            have hbody := hframe hframes
            rwa [← hsplit] at hbody
          · exact .inr (.inl ⟨message, by rw [herror]; rfl⟩)
          · obtain ⟨front, header', rest', bodies, a, b, c, rfl, hframes, htail⟩ := hhuge
            refine .inr (.inr ⟨by rw [hpanicked]; rfl, ?_⟩)
            refine ⟨_, header', rest', _, a, b, c, ?_, hframe hframes, htail⟩
            conv_lhs => rw [hsplit]
            simp
  · exact .inr (.inl ⟨_, rfl⟩)

/-- Every run ends in complete entries, in an error, or at a header of the largest size. -/
theorem parse_cases (debug : List Char → String) (out : List UInt8) :
    (∃ bodies, parseCatFileBatch debug out = .ok bodies ∧ Frames out bodies)
      ∨ (∃ message, parseCatFileBatch debug out = .error (.error message))
      ∨ (parseCatFileBatch debug out = .error .panicked ∧ HugeAt out) := by
  induction hlength : out.length using Nat.strong_induction_on generalizing out with
  | _ length ih =>
    by_cases hempty : out = []
    · subst hempty
      exact .inl ⟨[], by rw [parseCatFileBatch], .nil⟩
    rcases exists_line out with hlf | ⟨header, rest, hlf, rfl⟩
    · exact .inr (.inl ⟨_, parse_of_no_line hempty hlf⟩)
    · rw [parse_line hlf]
      refine afterHeader_cases hlf fun rest' hle => ih rest'.length ?_ rest' rfl
      rw [← hlength, List.length_append, List.length_cons]
      omega

theorem parse_eq_ok_iff : parseCatFileBatch debug out = .ok bodies ↔ Frames out bodies := by
  refine ⟨fun h => ?_, parse_of_frames⟩
  rcases parse_cases debug out with ⟨bodies', hok, hframes⟩ | ⟨message, herror⟩ | ⟨hpanicked, -⟩
  · rw [h] at hok
    obtain rfl := Except.ok.inj hok
    exact hframes
  · rw [h] at herror
    cases herror
  · rw [h] at hpanicked
    cases hpanicked

/-! ## What git's frames bring -/

variable {replies : List Reply}

theorem space_not_mem_toDigits (n : ℕ) {c : Char} (hc : c.isDigit = false) : c ∉ Nat.toDigits 10 n := by
  intro hmem
  rw [Nat.isDigit_of_mem_toDigits (by decide) (by decide) hmem] at hc
  cases hc

theorem parseUsize_toDigits {n : ℕ} (hn : n ≤ USIZE_MAX) : parseUsize (Nat.toDigits 10 n) = some n := by
  have hdigits : ∀ c ∈ Nat.toDigits 10 n, c.isDigit = true := fun c hc =>
    Nat.isDigit_of_mem_toDigits (by decide) (by decide) hc
  have hhead : (Nat.toDigits 10 n).head? ≠ some '+' := fun h =>
    absurd (hdigits '+' (List.mem_of_mem_head? h)) (by decide)
  have hany : ¬((Nat.toDigits 10 n).any (!·.isDigit)) = true := by
    rw [List.any_eq_true]
    rintro ⟨c, hc, hnot⟩
    rw [hdigits c hc] at hnot
    cases hnot
  rw [parseUsize]
  simp only [if_neg hhead, Nat.ofDigitChars_ten_toDigits, if_pos hn]
  exact if_neg (not_or.mpr ⟨Nat.toDigits_ne_nil, hany⟩)

theorem lf_not_mem_header (r : Reply) : 10 ∉ Utf8.encode r.header := by
  refine Utf8.lf_not_mem_encode ?_
  cases r with
  | present name kind body =>
    simp only [Reply.header, List.mem_append, List.mem_cons, not_or]
    exact ⟨name.plain.2, by decide, kind.plain.2, by decide, space_not_mem_toDigits _ (by decide)⟩
  | missing name =>
    simp only [Reply.header, List.mem_append, List.mem_cons, not_or]
    exact ⟨name.plain.2, by decide, by decide⟩

theorem fields_present (name kind : Word) (body : List UInt8) :
    fields (Utf8.encode (Reply.present name kind body).header)
      = [name.text, kind.text, Nat.toDigits 10 body.length] := by
  rw [fields, Utf8.lossy_encode, Reply.header, List.splitOn_append_cons_self_of_not_mem name.plain.1,
    List.splitOn_append_cons_self_of_not_mem kind.plain.1,
    List.splitOn_eq_singleton (space_not_mem_toDigits _ (by decide))]

theorem fields_missing (name : Word) :
    fields (Utf8.encode (Reply.missing name).header) = [name.text, "missing".toList] := by
  rw [fields, Utf8.lossy_encode, Reply.header, List.splitOn_append_cons_self_of_not_mem name.plain.1,
    List.splitOn_eq_singleton (by decide)]

/-- A body that a size can count. -/
def Reply.Counted : Reply → Prop
  | present _ _ body => body.length < USIZE_MAX
  | missing _ => True

theorem parse_frame {r : Reply} (hr : r.Counted) (rest : List UInt8) :
    parseCatFileBatch debug (r.frame ++ rest) = (parseCatFileBatch debug rest).map (r.text :: ·) := by
  rw [Reply.frame, List.append_assoc, List.cons_append]
  cases r with
  | present name kind body =>
    have hlength : ¬(body ++ [10] ++ rest).length < body.length + 1 := by
      rw [List.length_append, List.length_append, List.length_singleton]
      omega
    have hdrop : (body ++ [10] ++ rest).drop (body.length + 1) = rest := by
      rw [← List.drop_drop, List.append_assoc, List.drop_left]
      rfl
    have htake : (body ++ [10] ++ rest).take body.length = body := by
      rw [List.append_assoc, List.take_left]
    rw [parse_body (lf_not_mem_header _) (fields_present name kind body) (parseUsize_toDigits hr.le) hr.ne,
      Reply.tail, if_neg hlength, hdrop, htake]
    rfl
  | missing name => exact parse_miss (lf_not_mem_header _) (fields_missing name) rest

theorem parse_stream (h : ∀ r ∈ replies, r.Counted) :
    parseCatFileBatch debug (stream replies) = .ok (replies.map Reply.text) := by
  induction replies with
  | nil => rw [stream, List.flatMap_nil, parseCatFileBatch, List.map_nil]
  | cons r replies ih =>
    rw [stream, List.flatMap_cons, parse_frame (h r List.mem_cons_self), ← stream,
      ih fun r hr => h r (List.mem_cons_of_mem _ hr)]
    rfl

theorem nil_of_first_lf {front between back back' : List UInt8} (hlf : 10 ∉ front ++ between)
    (h : 10 :: back = between ++ 10 :: back') : between = [] := by
  cases between with
  | nil => rfl
  | cons b between =>
    obtain ⟨rfl, -⟩ := List.cons.inj h
    exact absurd (List.mem_append_right _ List.mem_cons_self) hlf

/-- Two texts with one first line feed agree in front of it and behind it. -/
theorem eq_of_first_lf {header' rest' : List UInt8} (hlf : 10 ∉ header) (hlf' : 10 ∉ header')
    (h : header ++ 10 :: rest = header' ++ 10 :: rest') : header = header' ∧ rest = rest' := by
  rcases List.append_eq_append_iff.mp h with ⟨between, rfl, hrest⟩ | ⟨between, rfl, hrest⟩
  · obtain rfl := nil_of_first_lf hlf' hrest
    exact ⟨(List.append_nil _).symm, (List.cons.inj hrest).2⟩
  · obtain rfl := nil_of_first_lf hlf hrest
    exact ⟨List.append_nil _, (List.cons.inj hrest).2.symm⟩

theorem error_of_cut_frame {r : Reply} (hr : r.Counted) (hne : out ≠ []) (hcut : out <+: r.frame)
    (hlt : out.length < r.frame.length) : ∃ message, parseCatFileBatch debug out = .error (.error message) := by
  rcases exists_line out with hlf | ⟨header, rest, hlf, rfl⟩
  · exact ⟨_, parse_of_no_line hne hlf⟩
  obtain ⟨missing, hmissing⟩ := hcut
  rw [List.append_assoc, List.cons_append, Reply.frame] at hmissing
  obtain ⟨rfl, htail⟩ := eq_of_first_lf hlf (lf_not_mem_header r) hmissing
  rw [Reply.frame, List.length_append, List.length_append, List.length_cons, List.length_cons] at hlt
  cases r with
  | present name kind body =>
    rw [Reply.tail, List.length_append, List.length_singleton] at hlt
    rw [parse_body hlf (fields_present name kind body) (parseUsize_toDigits hr.le) hr.ne, if_pos (by omega)]
    exact ⟨_, rfl⟩
  | missing name =>
    rw [Reply.tail, List.length_nil] at hlt
    omega

/-- Output that breaks off is read up to the end of a frame, or it is an error. -/
theorem parse_of_prefix (h : ∀ r ∈ replies, r.Counted) (hcut : out <+: stream replies) :
    (∃ k, out = stream (replies.take k)
        ∧ parseCatFileBatch debug out = .ok ((replies.take k).map Reply.text))
      ∨ ∃ message, parseCatFileBatch debug out = .error (.error message) := by
  have hnil : out = [] → out = stream (replies.take 0)
      ∧ parseCatFileBatch debug out = .ok ((replies.take 0).map Reply.text) := by
    rintro rfl
    exact ⟨rfl, by rw [parseCatFileBatch]; rfl⟩
  induction replies generalizing out with
  | nil => exact .inl ⟨0, hnil (List.prefix_nil.mp hcut)⟩
  | cons r replies ih =>
    by_cases hne : out = []
    · exact .inl ⟨0, hnil hne⟩
    have hframe : r.frame <+: stream (r :: replies) := List.prefix_append _ _
    -- cut inside the first frame, or behind it
    rcases Nat.lt_or_ge out.length r.frame.length with hlt | hge
    · exact .inr (error_of_cut_frame (h r List.mem_cons_self) hne
        (List.prefix_of_prefix_length_le hcut hframe hlt.le) hlt)
    · obtain ⟨out, rfl⟩ := List.prefix_of_prefix_length_le hframe hcut hge
      rw [stream, List.flatMap_cons, List.prefix_append_right_inj] at hcut
      have hrest := ih (fun r hr => h r (List.mem_cons_of_mem _ hr)) hcut (by
        rintro rfl
        exact ⟨rfl, by rw [parseCatFileBatch]; rfl⟩)
      rw [parse_frame (h r List.mem_cons_self)]
      rcases hrest with ⟨k, hout, hok⟩ | ⟨message, herror⟩
      · refine .inl ⟨k + 1, ?_, by rw [hok]; rfl⟩
        rw [List.take_succ_cons, stream, List.flatMap_cons, ← stream, ← hout]
      · exact .inr ⟨message, by rw [herror]; rfl⟩

/-! ## The law -/

theorem counted_of_fitsSlice (h : FitsSlice (stream replies)) : ∀ r ∈ replies, r.Counted := by
  intro r hr
  have hsub : r.frame.Sublist (stream replies) := by
    obtain ⟨front, back, rfl⟩ := List.append_of_mem hr
    rw [stream, List.flatMap_append, List.flatMap_cons]
    exact (List.sublist_append_left _ _).trans (List.sublist_append_right _ _)
  cases r with
  | present name kind body =>
    have hle := hsub.length_le
    rw [Reply.frame, Reply.tail, List.length_append, List.length_cons, List.length_append] at hle
    rw [FitsSlice] at h
    rw [Reply.Counted, USIZE_MAX]
    omega
  | missing name => trivial

/-- What git writes is read back in order, a body as its text and a miss as an empty one; a text is the
body exactly when the body is UTF-8; output that breaks off is read up to the end of an entry or
not at all; other output is read exactly when it is a sequence of entries, and no output without
a size of `usize::MAX` ends the run. -/
theorem parseCatFileBatch_law (debug : List Char → String) :
    (∀ replies, FitsSlice (stream replies) →
      parseCatFileBatch debug (stream replies) = .ok (replies.map Reply.text)
        ∧ ∀ out, out <+: stream replies →
          (∃ k, out = stream (replies.take k)
              ∧ parseCatFileBatch debug out = .ok ((replies.take k).map Reply.text))
            ∨ ∃ message, parseCatFileBatch debug out = .error (.error message))
      ∧ (∀ name kind body, Utf8.encode (Reply.present name kind body).text = body ↔ Utf8.Valid body)
      ∧ ∀ out,
        (∀ bodies, parseCatFileBatch debug out = .ok bodies ↔ Frames out bodies)
          ∧ (¬HugeAt out → parseCatFileBatch debug out ≠ .error .panicked) := by
  refine ⟨fun replies hfits => ?_, fun name kind body => Utf8.encode_lossy_iff, fun out =>
    ⟨fun bodies => parse_eq_ok_iff, fun hhuge hpanicked => ?_⟩⟩
  · have hcounted := counted_of_fitsSlice hfits
    exact ⟨parse_stream hcounted, fun out => parse_of_prefix hcounted⟩
  · rcases parse_cases debug out with ⟨bodies, hok, -⟩ | ⟨message, herror⟩ | ⟨-, h⟩
    · rw [hpanicked] at hok
      cases hok
    · rw [hpanicked] at herror
      cases herror
    · exact hhuge h

def someWord : Word := ⟨"aaa".toList, by decide⟩

/-- A miss is read as an empty body is. -/
theorem not_inverts : ¬Inverts String.ofList := by
  rintro ⟨read, hread⟩
  have hentries : ∀ r : Reply, r.text = [] → r.Counted → FitsSlice (stream [r]) → r.body = read [] := by
    intro r htext hcounted hfits
    obtain ⟨entries, hok, hmap⟩ := hread [r] hfits
    rw [parse_stream (fun r' hr' => List.mem_singleton.mp hr' ▸ hcounted)] at hok
    obtain rfl := Except.ok.inj hok
    rw [List.map_singleton, List.map_singleton, List.map_singleton, htext] at hmap
    exact (List.cons.inj hmap).1.symm
  have hempty : (Reply.present someWord someWord []).body = read [] :=
    hentries _ rfl (show 0 < USIZE_MAX by decide) (show List.length _ < 2 ^ 63 by decide +kernel)
  have hmiss : (Reply.missing someWord).body = read [] :=
    hentries _ rfl trivial (show List.length _ < 2 ^ 63 by decide +kernel)
  rw [← hempty] at hmiss
  cases hmiss

end CatFile
end Inkentry
