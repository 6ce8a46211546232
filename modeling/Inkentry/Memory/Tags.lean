/-
  Inkentry.Memory.Tags

  The spelling a tag is stored under: its words in lower case, with a dash
  between them.

  The loop goes over a tag once, and `normalizeTag_law` says that it cuts the
  text into words.  A stored tag is its own spelling as long as NFC leaves it as
  it is, which lowering does not see to.
-/

import Inkentry.Lib.JoinedText
import Inkentry.Lib.WordRuns

namespace Inkentry
namespace Memory
namespace Tags

open TextLines JoinedText WordRuns

/-- Neither white space nor `_`. -/
def isTagChar (c : Char) : Bool := !(isWhitespace c || c = '_')

/-- Unicode's tables, and what they say of lowering: it makes words of words, and leaves what it
    has made. -/
structure TagTables where
  nfc : List Char → List Char
  /-- `char::to_lowercase`, one or more characters. -/
  lowerChar : Char → List Char
  lower_ne_nil : ∀ c, lowerChar c ≠ []
  lower_word : ∀ c, isTagChar c = true → ∀ d ∈ lowerChar c, isTagChar d = true
  lower_lower : ∀ c, ∀ d ∈ lowerChar c, lowerChar d = [d]
  lower_dash : lowerChar '-' = ['-']

variable (T : TagTables)

/-- The loop of `normalize_tag`. -/
def collapse : List Char → Bool → List Char → List Char
  | out, _, [] => out
  | out, pendingSep, c :: rest =>
    if isWhitespace c || c = '_' then collapse out true rest
    else
      collapse ((if pendingSep && !out.isEmpty then out ++ ['-'] else out) ++ T.lowerChar c) false
        rest

def normalizeTag (raw : List Char) : Option (List Char) :=
  let out := collapse T [] false (trim (T.nfc raw))
  if out.isEmpty then none else some out

example : normalizeTag ⟨id, ([·]), fun _ => List.cons_ne_nil _ _, fun c hc d hd => by
    rwa [List.mem_singleton.mp hd], fun _ _ _ => rfl, rfl⟩ " a _b ".toList
      = some "a-b".toList := by decide

/-- The words of a text, in lower case. -/
def lowerWords (text : List Char) : List (List Char) :=
  (runs isTagChar text).map fun word => word.flatMap T.lowerChar

variable {T} {c : Char} {out word rest text : List Char}

theorem collapse_cons_of_not (hc : isTagChar c = false) (out : List Char) (pendingSep : Bool) :
    collapse T out pendingSep (c :: rest) = collapse T out true rest := by
  rw [collapse, if_pos (by rwa [isTagChar, Bool.not_eq_false'] at hc)]

theorem collapse_cons (hc : isTagChar c = true) (out : List Char) (pendingSep : Bool) :
    collapse T out pendingSep (c :: rest)
      = collapse T ((if pendingSep && !out.isEmpty then out ++ ['-'] else out) ++ T.lowerChar c)
          false rest := by
  rw [collapse, if_neg (by simpa [isTagChar] using hc)]

theorem collapse_append (h : ∀ c ∈ word, isTagChar c = true) (out rest : List Char) :
    collapse T out false (word ++ rest)
      = collapse T (out ++ word.flatMap T.lowerChar) false rest := by
  induction word generalizing out with
  | nil => rw [List.nil_append, List.flatMap_nil, List.append_nil]
  | cons c word ih =>
    rw [List.cons_append, collapse_cons (h c List.mem_cons_self), ih fun d hd => h d (.tail _ hd)]
    simp

theorem join_eq_nil_iff {words : List (List Char)} (h : ∀ w ∈ words, w ≠ []) :
    join '-' words = [] ↔ words = [] := by
  match words with
  | [] => exact iff_of_true rfl rfl
  | [w] => exact iff_of_false (h w List.mem_cons_self) (List.cons_ne_nil _ _)
  | w :: w' :: words => simp [join]

variable {words : List (List Char)}

/-- A word behind the words there are. -/
theorem collapse_word (hwords : ∀ w ∈ words, w ≠ []) (hword : ∀ c ∈ word, isTagChar c = true)
    (hne : word ≠ []) (rest : List Char) :
    collapse T (join '-' words) true (word ++ rest)
      = collapse T (join '-' (words ++ [word.flatMap T.lowerChar])) false rest := by
  cases word with
  | nil => exact absurd rfl hne
  | cons c word =>
    rw [List.cons_append, collapse_cons (hword c List.mem_cons_self),
      collapse_append fun d hd => hword d (.tail _ hd), List.flatMap_cons, List.append_assoc]
    congr 1
    cases words with
    | nil => rfl
    | cons w words =>
      have hout : (join '-' (w :: words)).isEmpty = false := by
        simpa using (join_eq_nil_iff hwords).not.mpr (List.cons_ne_nil _ _)
      rw [join_concat (List.cons_ne_nil _ _), hout]
      simp

theorem ne_nil_of_mem_lowerWords {w : List Char} (h : w ∈ lowerWords T text) : w ≠ [] := by
  obtain ⟨word, hword, rfl⟩ := List.mem_map.mp h
  obtain ⟨c, hc⟩ := List.exists_mem_of_ne_nil word (mem_runs hword).1
  exact fun hnil => T.lower_ne_nil c (List.flatMap_eq_nil_iff.mp hnil c hc)

theorem lowerWords_append_cons (hc : isTagChar c = false) (x y : List Char) :
    lowerWords T (x ++ c :: y) = lowerWords T x ++ lowerWords T y := by
  rw [lowerWords, runs_append_cons hc, List.map_append, lowerWords, lowerWords]

theorem lowerWords_of_forall (h : ∀ c ∈ text, isTagChar c = true) (hne : text ≠ []) :
    lowerWords T text = [text.flatMap T.lowerChar] := by
  rw [lowerWords, runs_of_forall_of_ne_nil h hne, List.map_singleton]

theorem lowerWords_nil : lowerWords T [] = [] := rfl

/-- The loop puts the words of the text behind those there are. -/
theorem collapse_words (hwords : ∀ w ∈ words, w ≠ []) (text : List Char) :
    collapse T (join '-' words) true text = join '-' (words ++ lowerWords T text) := by
  induction text using runs_induction isTagChar generalizing words with
  | all x hx =>
    by_cases hne : x = []
    · rw [hne, lowerWords_nil, List.append_nil, collapse]
    · rw [lowerWords_of_forall hx hne, ← List.append_nil x, collapse_word hwords hx hne, collapse,
        List.append_nil]
  | cut x c y hx hc ih =>
    rw [lowerWords_append_cons hc]
    by_cases hne : x = []
    · rw [hne, List.nil_append, collapse_cons_of_not hc, ih hwords, lowerWords_nil, List.nil_append]
    · have hword : x.flatMap T.lowerChar ≠ [] :=
        ne_nil_of_mem_lowerWords (lowerWords_of_forall hx hne ▸ List.mem_cons_self)
      have hwords' : ∀ w ∈ words ++ [x.flatMap T.lowerChar], w ≠ [] := by
        rintro w hw
        rcases List.mem_append.mp hw with hw | hw
        · exact hwords w hw
        · exact List.mem_singleton.mp hw ▸ hword
      rw [collapse_word hwords hx hne, collapse_cons_of_not hc, ih hwords',
        lowerWords_of_forall hx hne, List.append_assoc]

/-- In front of the first word it does not matter what was passed over. -/
theorem collapse_eq (text : List Char) :
    collapse T [] false text = join '-' (lowerWords T text) := by
  refine Eq.trans ?_ (collapse_words (fun w h => absurd h List.not_mem_nil) text)
  cases text with
  | nil => rfl
  | cons c text =>
    cases hc : isTagChar c with
    | false => exact (collapse_cons_of_not hc _ _).trans (collapse_cons_of_not hc _ _).symm
    | true => exact (collapse_cons hc _ _).trans (collapse_cons hc _ _).symm

/-! ## Trimming -/

theorem isTagChar_of_isWhitespace (h : isWhitespace c = true) : isTagChar c = false := by
  rw [isTagChar, h, Bool.true_or, Bool.not_true]

theorem lowerWords_of_not (h : ∀ c ∈ text, isTagChar c = false) : lowerWords T text = [] := by
  rw [lowerWords, runs_eq_nil_iff.mpr h, List.map_nil]

theorem lowerWords_append_of_not (h : ∀ c ∈ rest, isTagChar c = false) (text : List Char) :
    lowerWords T (rest ++ text) = lowerWords T text
      ∧ lowerWords T (text ++ rest) = lowerWords T text := by
  induction rest with
  | nil => exact ⟨rfl, by rw [List.append_nil]⟩
  | cons c rest ih =>
    have hc := h c List.mem_cons_self
    have hrest := fun d hd => h d (.tail _ hd)
    refine ⟨(lowerWords_append_cons hc [] _).trans (ih hrest).1, ?_⟩
    rw [lowerWords_append_cons hc, lowerWords_of_not hrest, List.append_nil]

theorem lowerWords_trim (text : List Char) : lowerWords T (trim text) = lowerWords T text := by
  have hback : ∀ c ∈ text.rtakeWhile isWhitespace, isTagChar c = false := fun c hc =>
    isTagChar_of_isWhitespace (List.mem_rtakeWhile_imp hc)
  have hfront : ∀ c ∈ (text.rdropWhile isWhitespace).takeWhile isWhitespace, isTagChar c = false :=
    fun c hc => isTagChar_of_isWhitespace (List.mem_takeWhile_imp hc)
  rw [trim, ← (lowerWords_append_of_not hfront _).1, List.takeWhile_append_dropWhile,
    ← (lowerWords_append_of_not hback _).2, List.rdropWhile_append_rtakeWhile]

/-! ## The law -/

theorem of_mem_join {d : Char} (h : d ∈ join '-' (lowerWords T text)) :
    isTagChar d = true ∧ T.lowerChar d = [d] := by
  rcases mem_join h with rfl | ⟨w, hw, hd⟩
  · exact ⟨by decide, T.lower_dash⟩
  · obtain ⟨word, hword, rfl⟩ := List.mem_map.mp hw
    obtain ⟨c, hc, hd⟩ := List.mem_flatMap.mp hd
    exact ⟨T.lower_word c ((mem_runs hword).2.1 c hc) d hd, T.lower_lower c d hd⟩

/-- A tag is stored as the lowercase words of its NFC text with dashes between them, and not at
    all where there is none.  What is stored has no white space and no `_`, and is stored as it is
    again if NFC leaves it alone. -/
theorem normalizeTag_law (T : TagTables) (raw : List Char) :
    normalizeTag T raw = (if lowerWords T (T.nfc raw) = [] then none
        else some (join '-' (lowerWords T (T.nfc raw))))
      ∧ ∀ tag ∈ normalizeTag T raw, (∀ c ∈ tag, isTagChar c = true)
        ∧ (T.nfc tag = tag → normalizeTag T tag = some tag) := by
  have heq : ∀ raw, normalizeTag T raw = if lowerWords T (T.nfc raw) = [] then none
      else some (join '-' (lowerWords T (T.nfc raw))) := by
    intro raw
    simp only [normalizeTag, collapse_eq, lowerWords_trim, List.isEmpty_iff,
      join_eq_nil_iff fun _ => ne_nil_of_mem_lowerWords]
  refine ⟨heq raw, fun tag htag => ?_⟩
  rw [heq raw] at htag
  split at htag
  · cases htag
  case isFalse hne =>
    obtain rfl := Option.some.inj htag
    refine ⟨fun c hc => (of_mem_join hc).1, fun hnfc => ?_⟩
    have htag : join '-' (lowerWords T (T.nfc raw)) ≠ [] :=
      (join_eq_nil_iff fun _ => ne_nil_of_mem_lowerWords).not.mpr hne
    have hlower : (join '-' (lowerWords T (T.nfc raw))).flatMap T.lowerChar
        = join '-' (lowerWords T (T.nfc raw)) :=
      (List.flatMap_congr fun c hc => (of_mem_join hc).2).trans (List.flatMap_singleton' _)
    rw [heq, hnfc, lowerWords_of_forall (fun c hc => (of_mem_join hc).1) htag, hlower,
      if_neg (List.cons_ne_nil _ _), join]

end Tags
end Memory
end Inkentry
