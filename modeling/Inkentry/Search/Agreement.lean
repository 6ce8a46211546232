/-
  Inkentry.Search.Agreement

  Index and query agree on words.

  A name of a query, a word or a part of a compound one, is a term of its
  expression, unless it is a stopword among others; and the tokens of a name are
  found in a text that has the name, in the text itself or among the parts added
  to it.  What is left out is a word of underscores, which has no tokens, and a
  compound stopword of a query of stopwords, whose parts are not kept.
-/

import Inkentry.Search.Lexical
import Inkentry.Lib.TextLines

namespace Inkentry
namespace Search

open WordRuns TextLines

variable {T : CharTable}

/-! ## Lowering -/

variable {front text : Text}
variable {c : Char}

/-- What a character may be lowered to. -/
def CharTable.lowerings (T : CharTable) (c : Char) : Text := if c = 'Σ' then ['σ', 'ς'] else T.lowerChar c

theorem mem_lowerings_of_mem_lowerFrom {d : Char} (h : d ∈ T.lowerFrom front text) :
    ∃ c ∈ text, d ∈ T.lowerings c := by
  induction text generalizing front with
  | nil => cases h
  | cons c text ih =>
    rw [CharTable.lowerFrom] at h
    rcases List.mem_append.mp h with hmem | hmem
    · refine ⟨c, List.mem_cons_self, ?_⟩
      rw [CharTable.lowerings]
      split
      case isTrue hc =>
        rw [if_pos hc] at hmem
        rw [List.mem_singleton.mp hmem]
        split <;> simp
      case isFalse hc => rwa [if_neg hc] at hmem
    · obtain ⟨c', hc', hd⟩ := ih hmem
      exact ⟨c', List.mem_cons_of_mem c hc', hd⟩

theorem mem_lowerFrom_of_mem (hc : c ∈ text) (hne : c ≠ 'Σ') {d : Char}
    (hd : d ∈ T.lowerChar c) : d ∈ T.lowerFrom front text := by
  induction text generalizing front with
  | nil => cases hc
  | cons b text ih =>
    rw [CharTable.lowerFrom]
    rcases List.mem_cons.mp hc with rfl | hmem
    · rw [if_neg hne]
      exact List.mem_append_left _ hd
    · exact List.mem_append_right _ (ih hmem)

theorem mem_lowerFrom_of_sigma (hc : 'Σ' ∈ text) :
    'σ' ∈ T.lowerFrom front text ∨ 'ς' ∈ T.lowerFrom front text := by
  induction text generalizing front with
  | nil => cases hc
  | cons b text ih =>
    rw [CharTable.lowerFrom]
    rcases List.mem_cons.mp hc with rfl | hmem
    · rw [if_pos rfl]
      cases T.endsWord front text with
      | true => exact Or.inr (List.mem_append_left _ (List.mem_singleton_self _))
      | false => exact Or.inl (List.mem_append_left _ (List.mem_singleton_self _))
    · exact (ih hmem).imp (List.mem_append_right _) (List.mem_append_right _)

/-- Plain characters are lowered one by one, to what the tokenizer takes for the same. -/
theorem forall₂_lowerFrom (h : ∀ c ∈ text, T.LowersPlainly c) :
    List.Forall₂ (fun c d => T.isAlphanumeric c = T.isAlphanumeric d ∧ T.fold c = T.fold d) text
      (T.lowerFrom front text) := by
  induction text generalizing front with
  | nil => exact List.Forall₂.nil
  | cons c text ih =>
    have hrest := @ih (c :: front) fun d hd => h d (List.mem_cons_of_mem c hd)
    rw [CharTable.lowerFrom]
    by_cases hc : c = 'Σ'
    · have hd : (if T.endsWord front text then 'ς' else 'σ') ∈ ['σ', 'ς'] := by
        split <;> simp
      obtain ⟨hfold, halnum⟩ := T.sigma _ hd
      rw [if_pos hc, List.singleton_append]
      refine List.Forall₂.cons ?_ hrest
      rw [hc]
      exact ⟨halnum.symm, hfold.symm⟩
    · obtain ⟨d, hd, halnum, hfold⟩ := (h c List.mem_cons_self).resolve_left hc
      rw [if_neg hc, hd, List.singleton_append]
      exact List.Forall₂.cons ⟨halnum.symm, hfold.symm⟩ hrest

theorem tokens_toLowercase {text : Text} (h : ∀ c ∈ text, T.LowersPlainly c) :
    T.tokens (T.toLowercase text) = T.tokens text :=
  (map_runs_congr (forall₂_lowerFrom h)).symm

theorem isWordChar_toLowercase {text : Text} (hplain : ∀ c ∈ text, T.LowersPlainly c)
    (hword : ∀ c ∈ text, T.isWordChar c = true) : ∀ d ∈ T.toLowercase text, T.isWordChar d = true := by
  intro d hd
  obtain ⟨c, hc, hmem⟩ := mem_lowerings_of_mem_lowerFrom hd
  rw [CharTable.lowerings] at hmem
  rw [CharTable.isWordChar, Bool.or_eq_true]
  have hcword := hword c hc
  rw [CharTable.isWordChar, Bool.or_eq_true] at hcword
  by_cases hsigma : c = 'Σ'
  · rw [if_pos hsigma] at hmem
    have halnum := (T.sigma d hmem).2
    refine Or.inl (halnum.trans ?_)
    rw [hsigma] at hcword
    exact hcword.resolve_right (by decide)
  · rw [if_neg hsigma] at hmem
    obtain ⟨d', hd', halnum, -⟩ := (hplain c hc).resolve_left hsigma
    obtain rfl : d = d' := by simpa [hd'] using hmem
    rcases hcword with hcalnum | hunder
    · exact Or.inl (halnum.trans hcalnum)
    · -- an underscore stays one
      rw [of_decide_eq_true hunder, T.lower_underscore] at hmem
      exact Or.inr (decide_eq_true (List.mem_singleton.mp hmem))

theorem lowersPlainly_of_toLowercase_eq {a b : Text} (hplain : ∀ c ∈ a, T.LowersPlainly c)
    (hword : ∀ c ∈ a, T.isWordChar c = true) (h : T.toLowercase a = T.toLowercase b) :
    ∀ c ∈ b, T.LowersPlainly c := by
  intro c hc
  by_cases hsigma : c = 'Σ'
  · exact Or.inl hsigma
  · rcases T.lower_cases c with hone | ⟨d, hd, hnot⟩
    · exact Or.inr hone
    · have hmem : d ∈ T.toLowercase b := mem_lowerFrom_of_mem hc hsigma hd
      rw [← h] at hmem
      have hdword := isWordChar_toLowercase hplain hword d hmem
      rw [CharTable.isWordChar, CharTable.isAlphanumeric, hnot] at hdword
      cases hdword

/-! ## Names -/

theorem mem_cutSegment {part rest p : Text} {prev : Char} (h : p ∈ T.cutSegment part prev rest)
    (hpart : part ≠ []) : p ≠ [] ∧ ∀ c ∈ p, c ∈ part ++ rest := by
  induction rest generalizing part prev with
  | nil =>
    obtain rfl := List.mem_singleton.mp h
    exact ⟨hpart, fun c hc => List.mem_append_left _ hc⟩
  | cons cur rest ih =>
    rw [CharTable.cutSegment] at h
    split at h
    · rcases List.mem_cons.mp h with rfl | hmem
      · exact ⟨hpart, fun c hc => List.mem_append_left _ hc⟩
      · obtain ⟨hne, hall⟩ := ih hmem (List.cons_ne_nil _ _)
        exact ⟨hne, fun c hc => List.mem_append_right _ (hall c hc)⟩
    · obtain ⟨hne, hall⟩ := ih h (List.append_ne_nil_of_right_ne_nil _ (List.cons_ne_nil _ _))
      refine ⟨hne, ?_⟩
      intro c hc
      have hmem := hall c hc
      rwa [List.append_assoc, List.singleton_append] at hmem

/-- A part is not empty, and its characters are the word's, without underscores. -/
theorem mem_spelledParts {word p : Text} (h : p ∈ T.spelledParts word) :
    p ≠ [] ∧ ∀ c ∈ p, c ∈ word ∧ c ≠ '_' := by
  obtain ⟨segment, hsegment, hp⟩ := List.mem_flatMap.mp h
  have hchars : ∀ c ∈ segment, c ∈ word ∧ c ≠ '_' := fun c hc =>
    ⟨mem_of_mem_splitOn hsegment hc, fun heq => not_mem_of_mem_splitOn hsegment (heq ▸ hc)⟩
  cases segment with
  | nil => cases hp
  | cons c rest =>
    obtain ⟨hne, hall⟩ := mem_cutSegment hp (List.cons_ne_nil _ _)
    exact ⟨hne, fun d hd => hchars d (hall d hd)⟩

theorem mem_names_iff {text a : Text} : a ∈ T.names text ↔ ∃ word ∈ T.words text, a = word
    ∨ 1 < (T.spelledParts word).length ∧ a ∈ T.spelledParts word := by
  rw [CharTable.names, List.mem_flatMap]
  refine exists_congr fun word => and_congr_right fun _ => ?_
  rw [List.mem_cons]
  split
  case isTrue h => simp [h]
  case isFalse h => simp [h]

theorem isWordChar_of_mem_names {text a : Text} (h : a ∈ T.names text) :
    ∀ c ∈ a, T.isWordChar c = true ∧ c ∈ text := by
  obtain ⟨word, hword, rfl | ⟨-, hpart⟩⟩ := mem_names_iff.mp h
  · obtain ⟨-, hall, hin⟩ := mem_runs hword
    exact fun c hc => ⟨hall c hc, hin c hc⟩
  · obtain ⟨-, hall, hin⟩ := mem_runs hword
    intro c hc
    have hmem := ((mem_spelledParts hpart).2 c hc).1
    exact ⟨hall c hmem, hin c hmem⟩

theorem mem_compoundParts_iff {word x : Text} : x ∈ T.compoundParts word
    ↔ ∃ p ∈ T.spelledParts word, 1 < (T.spelledParts word).length ∧ x = T.toLowercase p := by
  rw [CharTable.compoundParts, CharTable.splitIdentifier, List.length_map]
  split
  case isTrue h =>
    rw [List.mem_map]
    exact exists_congr fun p => ⟨fun hp => ⟨hp.1, h, hp.2.symm⟩, fun hp => ⟨hp.1, hp.2.2.symm⟩⟩
  case isFalse h =>
    refine iff_of_false (List.not_mem_nil) ?_
    rintro ⟨p, -, hlen, -⟩
    exact h hlen

theorem exists_name_iff {text x : Text} : (∃ a ∈ T.names text, T.toLowercase a = x)
    ↔ ∃ word ∈ T.words text, x = T.toLowercase word ∨ x ∈ T.compoundParts word := by
  constructor
  · rintro ⟨a, ha, rfl⟩
    obtain ⟨word, hword, rfl | ⟨hlen, hpart⟩⟩ := mem_names_iff.mp ha
    · exact ⟨_, hword, Or.inl rfl⟩
    · exact ⟨word, hword, Or.inr (mem_compoundParts_iff.mpr ⟨a, hpart, hlen, rfl⟩)⟩
  · rintro ⟨word, hword, rfl | hpart⟩
    · exact ⟨word, mem_names_iff.mpr ⟨word, hword, Or.inl rfl⟩, rfl⟩
    · obtain ⟨p, hp, hlen, rfl⟩ := mem_compoundParts_iff.mp hpart
      exact ⟨p, mem_names_iff.mpr ⟨word, hword, Or.inr ⟨hlen, hp⟩⟩, rfl⟩

/-! ## Terms -/

variable {x : Text}
variable {query : Text}

theorem mem_pushTerm {list : List Text} {t x : Text} : x ∈ pushTerm list t ↔ x ∈ list ∨ x = t := by
  rw [pushTerm]
  split
  case isTrue h =>
    constructor
    · exact Or.inl
    · rintro (hx | rfl)
      · exact hx
      · exact h
  case isFalse h => rw [List.mem_append, List.mem_singleton]

theorem mem_pushUnlessStopword {list : List Text} {t x : Text} :
    x ∈ pushUnlessStopword list t ↔ x ∈ list ∨ x = t ∧ x ∉ stopwords := by
  rw [pushUnlessStopword]
  split
  case isTrue h =>
    constructor
    · exact Or.inl
    · rintro (hx | ⟨rfl, hx⟩)
      · exact hx
      · exact absurd h hx
  case isFalse h =>
    rw [mem_pushTerm]
    exact or_congr_right ⟨fun hx => ⟨hx, hx ▸ h⟩, fun hx => hx.1⟩

theorem mem_foldl_pushUnlessStopword {parts list : List Text} :
    x ∈ parts.foldl pushUnlessStopword list ↔ x ∈ list ∨ x ∈ parts ∧ x ∉ stopwords := by
  induction parts generalizing list with
  | nil => simp
  | cons part parts ih =>
    rw [List.foldl_cons, ih, mem_pushUnlessStopword, List.mem_cons, or_assoc, ← or_and_right]

theorem mem_foldl_pushWord {words : List Text} {acc : List Text × List Text} :
    (x ∈ (words.foldl T.pushWord acc).1 ↔ x ∈ acc.1
      ∨ (∃ word ∈ words, x = T.toLowercase word ∨ x ∈ T.compoundParts word) ∧ x ∉ stopwords)
    ∧ (x ∈ (words.foldl T.pushWord acc).2 ↔ x ∈ acc.2 ∨ ∃ word ∈ words, x = T.toLowercase word) := by
  induction words generalizing acc with
  | nil => simp
  | cons word words ih =>
    obtain ⟨hterms, hall⟩ := @ih (T.pushWord acc word)
    have hpush : x ∈ (T.pushWord acc word).1 ↔ x ∈ acc.1
        ∨ (x = T.toLowercase word ∨ x ∈ T.compoundParts word) ∧ x ∉ stopwords := by
      rw [CharTable.pushWord, mem_foldl_pushUnlessStopword, mem_pushUnlessStopword, or_assoc,
        ← or_and_right]
    have hpushAll : x ∈ (T.pushWord acc word).2 ↔ x ∈ acc.2 ∨ x = T.toLowercase word := mem_pushTerm
    rw [List.foldl_cons, hterms, hall, hpush, hpushAll]
    simp only [List.exists_mem_cons_iff, or_assoc, or_and_right, and_self]

/-- With a name that is no stopword, the terms are the names that are none. -/
theorem mem_queryTerms_of_name {query a : Text} (ha : a ∈ T.names query)
    (hstop : T.toLowercase a ∉ stopwords) :
    x ∈ T.queryTerms query ↔ (∃ b ∈ T.names query, T.toLowercase b = x) ∧ x ∉ stopwords := by
  have hmem : ∀ y, y ∈ ((T.words query).foldl T.pushWord ([], [])).1
      ↔ (∃ b ∈ T.names query, T.toLowercase b = y) ∧ y ∉ stopwords := by
    intro y
    rw [(mem_foldl_pushWord).1, exists_name_iff]
    simp
  have hne : ((T.words query).foldl T.pushWord ([], [])).1 ≠ [] :=
    List.ne_nil_of_mem ((hmem _).mpr ⟨⟨a, ha, rfl⟩, hstop⟩)
  rw [CharTable.queryTerms]
  dsimp only
  rw [if_neg hne, hmem]

theorem mem_queryTerms_of_stopwords (hstop : ∀ a ∈ T.names query, T.toLowercase a ∈ stopwords) :
    x ∈ T.queryTerms query ↔ ∃ word ∈ T.words query, x = T.toLowercase word := by
  have hnil : ((T.words query).foldl T.pushWord ([], [])).1 = [] := by
    rw [List.eq_nil_iff_forall_not_mem]
    intro y hy
    rw [(mem_foldl_pushWord).1, ← exists_name_iff] at hy
    obtain ⟨⟨b, hb, rfl⟩, hnot⟩ := hy.resolve_left List.not_mem_nil
    exact hnot (hstop b hb)
  rw [CharTable.queryTerms]
  dsimp only
  rw [if_pos hnil, (mem_foldl_pushWord).2]
  simp

theorem exists_name_of_mem_queryTerms {query x : Text} (hx : x ∈ T.queryTerms query) :
    ∃ a ∈ T.names query, T.toLowercase a = x := by
  by_cases hstop : ∀ a ∈ T.names query, T.toLowercase a ∈ stopwords
  · obtain ⟨word, hword, rfl⟩ := (mem_queryTerms_of_stopwords hstop).mp hx
    exact ⟨word, mem_names_iff.mpr ⟨word, hword, Or.inl rfl⟩, rfl⟩
  · rw [not_forall] at hstop
    obtain ⟨a, hstop⟩ := hstop
    rw [Classical.not_imp] at hstop
    exact ((mem_queryTerms_of_name hstop.1 hstop.2).mp hx).1

/-! ## The expression -/

theorem quote_not_mem_of_mem_queryTerms {query x : Text} (hx : x ∈ T.queryTerms query) : '"' ∉ x := by
  obtain ⟨a, ha, rfl⟩ := exists_name_of_mem_queryTerms hx
  intro hmem
  obtain ⟨c, hc, hd⟩ := mem_lowerings_of_mem_lowerFrom hmem
  rw [CharTable.lowerings] at hd
  split at hd
  · exact absurd hd (by decide)
  · -- a quote would have come from a quote, which is no part of a name
    obtain rfl := T.lower_delimiters c '"' hd (by decide)
    have hword := (isWordChar_of_mem_names ha _ hc).1
    rw [CharTable.isWordChar, CharTable.isAlphanumeric, T.delimiters '"' (by decide)] at hword
    exact absurd hword (by decide)

theorem lex_quoted {s : Text} (hs : '"' ∉ s) (read rest : Text) :
    lex (.quoted read) (s ++ '"' :: rest) = lex (.quoteSeen (read ++ s)) rest := by
  induction s generalizing read with
  | nil => rw [List.nil_append, lex, if_pos rfl, List.append_nil]
  | cons c s ih =>
    have hc : c ≠ '"' := fun heq => hs (heq ▸ List.mem_cons_self)
    rw [List.cons_append, lex, if_neg hc, ih (fun hmem => hs (List.mem_cons_of_mem c hmem)),
      List.append_assoc, List.singleton_append]

theorem lex_quote {s : Text} (hs : '"' ∉ s) (rest : Text) :
    lex .between (quote s ++ rest) = lex (.quoteSeen s) rest := by
  have happ : quote s ++ rest = '"' :: (s ++ '"' :: rest) := by
    rw [quote, List.cons_append, List.append_assoc, List.singleton_append]
  rw [happ, lex]
  exact lex_quoted hs [] rest

theorem parseExpression_intercalate {terms : List Text} (hne : terms ≠ [])
    (hterms : ∀ x ∈ terms, '"' ∉ x) :
    parseExpression (orSeparator.intercalate (terms.map quote)) = some terms := by
  induction terms with
  | nil => exact absurd rfl hne
  | cons x terms ih =>
    have hx := hterms x List.mem_cons_self
    cases terms with
    | nil =>
      have hlex := lex_quote hx []
      rw [List.append_nil] at hlex
      rw [List.map_singleton, List.intercalate_singleton, parseExpression, hlex]
      rfl
    | cons y terms =>
      have hrest := ih (List.cons_ne_nil _ _) fun z hz => hterms z (List.mem_cons_of_mem x hz)
      rw [parseExpression] at hrest ⊢
      obtain ⟨lexemes, hlex, hparse⟩ := Option.bind_eq_some_iff.mp hrest
      have happ : orSeparator.intercalate ((x :: y :: terms).map quote)
          = quote x ++ (orSeparator ++ orSeparator.intercalate ((y :: terms).map quote)) := by
        rw [List.map_cons, List.map_cons, List.intercalate_cons_cons, ← List.map_cons,
          List.append_assoc]
      have hsep : ∀ rest, lex (.quoteSeen x) (orSeparator ++ rest)
          = (lex .between rest).map fun l => .string x :: .bare ['O', 'R'] :: l := by
        intro rest
        show ((lex .between rest).map (.bare ['O', 'R'] :: ·)).map (.string x :: ·) = _
        rw [Option.map_map]
        rfl
      rw [happ, lex_quote hx, hsep, hlex, Option.map_some, Option.bind_some, parseOr, hparse]
      rfl

theorem parseExpression_codeFtsQuery (query : Text) : parseExpression (T.codeFtsQuery query)
    = some (if T.queryTerms query = [] then [[]] else T.queryTerms query) := by
  rw [CharTable.codeFtsQuery]
  split
  case isTrue => rfl
  case isFalse h =>
    exact parseExpression_intercalate h fun x hx => quote_not_mem_of_mem_queryTerms hx

theorem phraseMatches_iff {doc : List Text} :
    T.phraseMatches doc x = true ↔ T.tokens x ≠ [] ∧ T.tokens x <:+: doc := by
  rw [CharTable.phraseMatches, Bool.and_eq_true, decide_eq_true_eq]
  simp

theorem ftsMatch_codeFtsQuery_iff {doc : List Text} :
    T.ftsMatch (T.codeFtsQuery query) doc = true
      ↔ ∃ x ∈ T.queryTerms query, T.tokens x ≠ [] ∧ T.tokens x <:+: doc := by
  rw [CharTable.ftsMatch, parseExpression_codeFtsQuery]
  dsimp only
  rw [List.any_eq_true]
  simp only [phraseMatches_iff]
  split
  case isTrue h =>
    rw [h]
    refine iff_of_false ?_ ?_
    · rintro ⟨x, hx, htokens, -⟩
      obtain rfl := List.mem_singleton.mp hx
      exact htokens rfl
    · rintro ⟨x, hx, -⟩
      cases hx
  case isFalse => rfl

/-! ## The indexed text -/

theorem isAlphanumeric_delimiter (h : c ∈ [' ', '"', '_']) : T.isAlphanumeric c = false :=
  T.delimiters c h

theorem tokens_append_space (x y : Text) : T.tokens (x ++ ' ' :: y) = T.tokens x ++ T.tokens y := by
  rw [CharTable.tokens, runs_append_cons (isAlphanumeric_delimiter (by decide)), List.map_append]
  rfl

theorem tokens_pushSpaced (out part : Text) :
    T.tokens (pushSpaced out part) = T.tokens out ++ T.tokens part := by
  rw [pushSpaced]
  cases out with
  | nil => rfl
  | cons c out =>
    rw [List.isEmpty_cons, if_neg (by simp), List.append_assoc, List.singleton_append,
      tokens_append_space]

theorem tokens_foldl_pushSpaced (parts : List Text) (out : Text) :
    T.tokens (parts.foldl pushSpaced out) = T.tokens out ++ parts.flatMap T.tokens := by
  induction parts generalizing out with
  | nil => rw [List.foldl_nil, List.flatMap_nil, List.append_nil]
  | cons part parts ih =>
    rw [List.foldl_cons, ih, tokens_pushSpaced, List.flatMap_cons, List.append_assoc]

theorem indexed_eq (text : Text) : T.indexed text
    = T.tokens text ++ ((T.words text).flatMap T.compoundParts).flatMap T.tokens := by
  rw [CharTable.indexed, tokens_append_space, CharTable.identifierSubwords, tokens_foldl_pushSpaced]
  rfl

theorem tokens_eq_flatMap (text : Text) : T.tokens text = (T.words text).flatMap T.tokens := by
  have hwider : ∀ c, T.isAlphanumeric c = true → T.isWordChar c = true := by
    intro c hc
    rw [CharTable.isWordChar, hc, Bool.true_or]
  have hruns : runs T.isAlphanumeric text = (T.words text).flatMap (runs T.isAlphanumeric) :=
    runs_eq_flatMap hwider text
  rw [CharTable.tokens, hruns, List.map_flatMap]
  rfl

theorem infix_flatMap {α β : Type*} {f : α → List β} {l : List α} {a : α} (h : a ∈ l) :
    f a <:+: l.flatMap f := by
  rw [List.flatMap_def]
  exact List.infix_of_mem_flatten (List.mem_map_of_mem h)

/-- A name is found in the indexed text by its tokens or by those of its lowercase. -/
theorem infix_indexed_of_mem_names {text b : Text} (hb : b ∈ T.names text) :
    T.tokens b <:+: T.indexed text ∨ T.tokens (T.toLowercase b) <:+: T.indexed text := by
  rw [indexed_eq]
  obtain ⟨word, hword, rfl | ⟨hlen, hpart⟩⟩ := mem_names_iff.mp hb
  · left
    rw [tokens_eq_flatMap text]
    exact (infix_flatMap hword).trans (List.infix_append' [] _ _)
  · right
    have hmem : T.toLowercase b ∈ (T.words text).flatMap T.compoundParts :=
      List.mem_flatMap.mpr ⟨word, hword, mem_compoundParts_iff.mpr ⟨b, hpart, hlen, rfl⟩⟩
    exact (infix_flatMap hmem).trans (List.suffix_append _ _).isInfix

theorem tokens_eq_nil_iff {text : Text} : T.tokens text = [] ↔ ∀ c ∈ text, T.isAlphanumeric c = false := by
  rw [CharTable.tokens, List.map_eq_nil_iff, runs_eq_nil_iff]

/-! ## Found by its names -/

theorem isAlphanumeric_of_isWordChar (hword : T.isWordChar c = true) (hne : c ≠ '_') :
    T.isAlphanumeric c = true := by
  rw [CharTable.isWordChar, Bool.or_eq_true] at hword
  exact hword.resolve_right (by simpa using hne)

theorem tokens_ne_nil_of_mem_names {query a : Text} (h : Searchable T query) (ha : a ∈ T.names query) :
    T.tokens a ≠ [] := by
  have hvisible : ∃ c ∈ a, c ≠ '_' := by
    obtain ⟨word, hword, rfl | ⟨-, hpart⟩⟩ := mem_names_iff.mp ha
    · exact h.visible _ hword
    · obtain ⟨hne, hall⟩ := mem_spelledParts hpart
      obtain ⟨c, hc⟩ := List.exists_mem_of_ne_nil a hne
      exact ⟨c, hc, (hall c hc).2⟩
  obtain ⟨c, hc, hne⟩ := hvisible
  intro hnil
  have halnum := isAlphanumeric_of_isWordChar (isWordChar_of_mem_names ha c hc).1 hne
  rw [tokens_eq_nil_iff.mp hnil c hc] at halnum
  cases halnum

/-- A name that is no stopword, or any name of a query of stopwords, is a term. -/
theorem toLowercase_mem_queryTerms {query a : Text} (h : Searchable T query) (ha : a ∈ T.names query)
    (hkept : T.isStopword a = false ∨ T.onlyStopwords query = true) :
    T.toLowercase a ∈ T.queryTerms query := by
  by_cases hstop : T.toLowercase a ∈ stopwords
  · have honly : T.onlyStopwords query = true := by
      refine hkept.resolve_left ?_
      rw [CharTable.isStopword, decide_eq_true hstop]
      simp
    have hwords : ∀ word ∈ T.words query, T.toLowercase word ∈ stopwords := fun word hword =>
      of_decide_eq_true (List.all_eq_true.mp honly word hword)
    -- every name is, lowercased, one of the words
    have hown : ∀ b ∈ T.names query, ∃ word ∈ T.words query, T.toLowercase b = T.toLowercase word := by
      intro b hb
      obtain ⟨word, hword, hword' | hpart⟩ := exists_name_iff.mp ⟨b, hb, rfl⟩
      · exact ⟨word, hword, hword'⟩
      · obtain ⟨word', hword', heq⟩ := List.mem_map.mp (h.ownParts honly word hword _ hpart)
        exact ⟨word', hword', heq.symm⟩
    have hall : ∀ b ∈ T.names query, T.toLowercase b ∈ stopwords := by
      intro b hb
      obtain ⟨word, hword, heq⟩ := hown b hb
      rw [heq]
      exact hwords word hword
    exact (mem_queryTerms_of_stopwords hall).mpr (hown a ha)
  · exact (mem_queryTerms_of_name ha hstop).mpr ⟨⟨a, ha, rfl⟩, hstop⟩

theorem ftsMatch_of_searchable (hplain : ∀ c ∈ query, T.LowersPlainly c) (h : Searchable T query)
    {text a b : Text} (ha : a ∈ T.names query) (hb : b ∈ T.names text)
    (hsame : T.toLowercase a = T.toLowercase b)
    (hkept : T.isStopword a = false ∨ T.onlyStopwords query = true) :
    T.ftsMatch (T.codeFtsQuery query) (T.indexed text) = true := by
  have haPlain : ∀ c ∈ a, T.LowersPlainly c := fun c hc =>
    hplain c (isWordChar_of_mem_names ha c hc).2
  have haWord : ∀ c ∈ a, T.isWordChar c = true := fun c hc => (isWordChar_of_mem_names ha c hc).1
  have hbPlain := lowersPlainly_of_toLowercase_eq haPlain haWord hsame
  have hne : T.tokens (T.toLowercase a) ≠ [] := by
    rw [tokens_toLowercase haPlain]
    exact tokens_ne_nil_of_mem_names h ha
  rw [ftsMatch_codeFtsQuery_iff]
  refine ⟨T.toLowercase a, toLowercase_mem_queryTerms h ha hkept, hne, ?_⟩
  rw [hsame]
  rcases infix_indexed_of_mem_names hb with hwithin | hwithin
  · rwa [tokens_toLowercase hbPlain]
  · exact hwithin

/-! ## Lowercase ASCII -/

def IsAsciiLower (text : Text) : Prop := ∀ c ∈ text, 'a' ≤ c ∧ c ≤ 'z'

theorem stopwords_ascii : ∀ x ∈ stopwords, x ≠ [] ∧ IsAsciiLower x := by
  have hall : stopwords.all (fun x => !x.isEmpty && x.all fun c => 'a' ≤ c && c ≤ 'z') = true := by
    decide
  intro x hx
  have hword := List.all_eq_true.mp hall x hx
  rw [Bool.and_eq_true, List.all_eq_true] at hword
  refine ⟨by simpa using hword.1, fun c hc => ?_⟩
  simpa using hword.2 c hc

theorem lowerFrom_ascii {front x : Text} (hx : IsAsciiLower x) : T.lowerFrom front x = x := by
  induction x generalizing front with
  | nil => rfl
  | cons c x ih =>
    obtain ⟨hlo, hhi⟩ := hx c List.mem_cons_self
    have hsigma : c ≠ 'Σ' := by
      rintro rfl
      exact absurd hhi (by decide)
    obtain ⟨-, -, -, hlower, -⟩ := T.ascii c hlo hhi
    rw [CharTable.lowerFrom, if_neg hsigma, hlower, List.singleton_append,
      ih fun d hd => hx d (List.mem_cons_of_mem c hd)]

theorem isAlphanumeric_ascii (hx : IsAsciiLower x) : ∀ c ∈ x, T.isAlphanumeric c = true := by
  intro c hc
  obtain ⟨hlo, hhi⟩ := hx c hc
  rw [CharTable.isAlphanumeric, (T.ascii c hlo hhi).1, Bool.true_or]

theorem tokens_ascii (hx : IsAsciiLower x) (hne : x ≠ []) : T.tokens x = [x] := by
  have hfold : x.map T.fold = x := by
    rw [List.map_congr_left fun c hc => (T.ascii c (hx c hc).1 (hx c hc).2).2.2.2.2, List.map_id']
  rw [CharTable.tokens, runs_of_forall_of_ne_nil (isAlphanumeric_ascii hx) hne, List.map_singleton,
    hfold]

theorem cutSegment_ascii {part rest : Text} {prev : Char} (hprev : 'a' ≤ prev ∧ prev ≤ 'z')
    (hrest : IsAsciiLower rest) : T.cutSegment part prev rest = [part ++ rest] := by
  induction rest generalizing part prev with
  | nil => rw [CharTable.cutSegment, List.append_nil]
  | cons cur rest ih =>
    have hcur := hrest cur List.mem_cons_self
    obtain ⟨-, hprevNumeric, -⟩ := T.ascii prev hprev.1 hprev.2
    obtain ⟨-, hcurNumeric, hcurUpper, -⟩ := T.ascii cur hcur.1 hcur.2
    have hboundary : T.boundary prev cur rest.head? = false := by
      rw [CharTable.boundary, hcurUpper, hcurNumeric, hprevNumeric]
      simp
    rw [CharTable.cutSegment, hboundary, if_neg (by simp),
      ih hcur (fun d hd => hrest d (List.mem_cons_of_mem cur hd)), List.append_assoc,
      List.singleton_append]

theorem names_ascii (hx : IsAsciiLower x) (hne : x ≠ []) : T.names x = [x] := by
  have hword : ∀ c ∈ x, T.isWordChar c = true := by
    intro c hc
    rw [CharTable.isWordChar, isAlphanumeric_ascii hx c hc, Bool.true_or]
  have hunder : '_' ∉ x := fun hmem => absurd (hx '_' hmem).1 (by decide)
  have hparts : T.spelledParts x = [x] := by
    obtain ⟨c, rest, rfl⟩ := List.exists_cons_of_ne_nil hne
    rw [CharTable.spelledParts, List.splitOn_eq_singleton hunder, List.flatMap_singleton,
      CharTable.segmentParts, cutSegment_ascii (hx c List.mem_cons_self)
        (fun d hd => hx d (List.mem_cons_of_mem c hd)), List.singleton_append]
  rw [CharTable.names, CharTable.words, runs_of_forall_of_ne_nil hword hne, List.flatMap_singleton,
    hparts, if_neg (by simp)]

theorem indexed_of_names (hwords : T.words x = [x]) (hnames : T.names x = [x]) :
    T.indexed x = T.tokens x := by
  have hcompound : T.compoundParts x = [] := by
    rw [CharTable.names, hwords, List.flatMap_singleton, List.cons_eq_cons] at hnames
    rw [CharTable.compoundParts, CharTable.splitIdentifier, List.length_map]
    by_cases hlen : 1 < (T.spelledParts x).length
    · rw [if_pos hlen] at hnames
      rw [hnames.2] at hlen
      exact absurd hlen (by simp)
    · rw [if_neg hlen]
  rw [indexed_eq, hwords, List.flatMap_singleton, hcompound, List.flatMap_nil, List.append_nil]

theorem indexed_ascii (hx : IsAsciiLower x) (hne : x ≠ []) : T.indexed x = [x] := by
  have hword : ∀ c ∈ x, T.isWordChar c = true := by
    intro c hc
    rw [CharTable.isWordChar, isAlphanumeric_ascii hx c hc, Bool.true_or]
  rw [indexed_of_names (runs_of_forall_of_ne_nil hword hne) (names_ascii hx hne), tokens_ascii hx hne]

/-- What lowers to ASCII does so part by part. -/
theorem isAsciiLower_toLowercase_of_subset {word p : Text} (hword : IsAsciiLower (T.toLowercase word))
    (hp : ∀ c ∈ p, c ∈ word) : IsAsciiLower (T.toLowercase p) := by
  intro d hd
  obtain ⟨c, hc, hmem⟩ := mem_lowerings_of_mem_lowerFrom hd
  rw [CharTable.lowerings] at hmem
  split at hmem
  case isTrue hsigma =>
    rw [hsigma] at hc
    rcases @mem_lowerFrom_of_sigma T [] word (hp _ hc) with hsmall | hfinal
    · exact absurd (hword _ hsmall).2 (by decide)
    · exact absurd (hword _ hfinal).2 (by decide)
  case isFalse hsigma => exact hword d (mem_lowerFrom_of_mem (hp c hc) hsigma hmem)

theorem toLowercase_ne_nil (hx : x ≠ []) (hplain : ∀ c ∈ x, T.LowersPlainly c) :
    T.toLowercase x ≠ [] := by
  intro hnil
  have hlen := (@forall₂_lowerFrom T [] x hplain).length_eq
  have hnil' : T.lowerFrom [] x = [] := hnil
  rw [hnil', List.length_nil] at hlen
  exact hx (List.eq_nil_of_length_eq_zero hlen)

/-! ## Missed names -/

/-- A word of underscores has no token, so the text that is that word is not found. -/
theorem visible_of_agrees (h : Agrees T query) : ∀ word ∈ T.words query, ∃ c ∈ word, c ≠ '_' := by
  intro word hword
  by_contra hunder
  have hall : ∀ c ∈ word, c = '_' := by
    intro c hc
    by_contra hne
    exact hunder ⟨c, hc, hne⟩
  have hne := (mem_runs hword).1
  -- a word of underscores has no part and no token, so its query matches nothing
  have hparts : T.spelledParts word = [] := by
    rw [List.eq_nil_iff_forall_not_mem]
    intro p hp
    obtain ⟨hpne, hchars⟩ := mem_spelledParts hp
    obtain ⟨c, hc⟩ := List.exists_mem_of_ne_nil p hpne
    exact (hchars c hc).2 (hall c (hchars c hc).1)
  have hwords : T.words word = [word] := runs_of_forall_of_ne_nil (mem_runs hword).2.1 hne
  have hnames : T.names word = [word] := by
    rw [CharTable.names, hwords, List.flatMap_singleton, hparts, if_neg (by simp)]
  have htokens : T.tokens word = [] := tokens_eq_nil_iff.mpr fun c hc =>
    hall c hc ▸ isAlphanumeric_delimiter (by decide)
  have hstop : T.isStopword word = false := by
    obtain ⟨c, hc⟩ := List.exists_mem_of_ne_nil word hne
    have hmem : '_' ∈ T.toLowercase word := by
      refine mem_lowerFrom_of_mem (hall c hc ▸ hc) (by decide) ?_
      rw [T.lower_underscore]
      exact List.mem_singleton_self _
    refine decide_eq_false fun hstop => ?_
    exact absurd ((stopwords_ascii _ hstop).2 '_' hmem).1 (by decide)
  have hmatch := h.finds word word (mem_names_iff.mpr ⟨word, hword, Or.inl rfl⟩) word
    (by rw [hnames]; exact List.mem_singleton_self _) rfl (Or.inl hstop)
  obtain ⟨x, -, hxne, hwithin⟩ := ftsMatch_codeFtsQuery_iff.mp hmatch
  rw [indexed_of_names hwords hnames, htokens] at hwithin
  exact hxne (List.infix_nil.mp hwithin)

/-- A part of a compound stopword that is no word of the query is missed, or misses the words. -/
theorem ownParts_of_agrees (hplain : ∀ c ∈ query, T.LowersPlainly c) (h : Agrees T query)
    (honly : T.onlyStopwords query = true) :
    ∀ word ∈ T.words query, ∀ part ∈ T.compoundParts word,
      part ∈ (T.words query).map T.toLowercase := by
  intro word hword part hpart
  have hwords : ∀ word ∈ T.words query, T.toLowercase word ∈ stopwords := fun word hword =>
    of_decide_eq_true (List.all_eq_true.mp honly word hword)
  -- every term is lowercase ASCII, and its own token
  have hascii : ∀ a ∈ T.names query, IsAsciiLower (T.toLowercase a) ∧ T.toLowercase a ≠ [] := by
    intro a ha
    obtain ⟨word', hword', rfl | ⟨-, hp⟩⟩ := mem_names_iff.mp ha
    · obtain ⟨hne, hlower⟩ := stopwords_ascii _ (hwords _ hword')
      exact ⟨hlower, hne⟩
    · obtain ⟨hpne, hchars⟩ := mem_spelledParts hp
      refine ⟨isAsciiLower_toLowercase_of_subset (stopwords_ascii _ (hwords _ hword')).2
        fun c hc => (hchars c hc).1, toLowercase_ne_nil hpne fun c hc => hplain c ?_⟩
      exact (isWordChar_of_mem_names ha c hc).2
  have hterm : ∀ x : Text, IsAsciiLower x → x ≠ [] →
      (∃ a ∈ T.names query, T.toLowercase a = x) → x ∈ T.queryTerms query := by
    rintro x hx hne ⟨a, ha, heq⟩
    have hmatch := h.finds x a ha x (by rw [names_ascii hx hne]; exact List.mem_singleton_self x)
      (heq.trans (lowerFrom_ascii hx).symm) (Or.inr honly)
    obtain ⟨y, hy, -, hwithin⟩ := ftsMatch_codeFtsQuery_iff.mp hmatch
    obtain ⟨b, hb, rfl⟩ := exists_name_of_mem_queryTerms hy
    obtain ⟨hlower, hlne⟩ := hascii b hb
    rw [indexed_ascii hx hne, tokens_ascii hlower hlne] at hwithin
    have hsub : T.toLowercase b ∈ [x] := hwithin.subset (List.mem_singleton_self _)
    rwa [← List.mem_singleton.mp hsub]
  obtain ⟨a, ha, hlower⟩ := exists_name_iff.mpr ⟨word, hword, Or.inr hpart⟩
  obtain ⟨haLower, haNe⟩ := hascii a ha
  rw [hlower] at haLower haNe
  have hpartTerm := hterm part haLower haNe ⟨a, ha, hlower⟩
  have hwordName : word ∈ T.names query := mem_names_iff.mpr ⟨word, hword, Or.inl rfl⟩
  obtain ⟨hwNe, hwLower⟩ := stopwords_ascii _ (hwords word hword)
  have hwordTerm := hterm _ hwLower hwNe ⟨word, hwordName, rfl⟩
  by_cases hstop : ∀ b ∈ T.names query, T.toLowercase b ∈ stopwords
  · obtain ⟨word', hword', rfl⟩ := (mem_queryTerms_of_stopwords hstop).mp hpartTerm
    exact List.mem_map_of_mem hword'
  · -- a part that is no stopword drops the words from the terms
    rw [not_forall] at hstop
    obtain ⟨b, hstop⟩ := hstop
    rw [Classical.not_imp] at hstop
    have hnot := ((mem_queryTerms_of_name hstop.1 hstop.2).mp hwordTerm).2
    exact absurd (hwords word hword) hnot

/-- Index and query agree on the words of a query whose characters lower plainly exactly when
    it has no word of underscores, and its compound stopwords have their parts beside them where
    every word is a stopword. -/
theorem agrees_iff {query : Text} (hplain : ∀ c ∈ query, T.LowersPlainly c) :
    Agrees T query ↔ Searchable T query := by
  constructor
  · exact fun h => ⟨visible_of_agrees h, ownParts_of_agrees hplain h⟩
  · intro h
    exact ⟨parseExpression_codeFtsQuery query,
      fun _ _ ha _ hb hsame hkept => ftsMatch_of_searchable hplain h ha hb hsame hkept⟩

/-! ## ASCII text -/

def capitals : List (Char × Char) := "ABCDEFGHIJKLMNOPQRSTUVWXYZ".toList.zip "abcdefghijklmnopqrstuvwxyz".toList

def lowerAscii (c : Char) : Char := ((capitals.find? fun p => p.1 = c).map Prod.snd).getD c

def isLowerAscii (c : Char) : Bool := 97 ≤ c.toNat && c.toNat ≤ 122

def isUpperAscii (c : Char) : Bool := 65 ≤ c.toNat && c.toNat ≤ 90

def isDigitAscii (c : Char) : Bool := 48 ≤ c.toNat && c.toNat ≤ 57

def foldAscii (c : Char) : Char := if c = 'Σ' ∨ c = 'ς' then 'σ' else lowerAscii c

/-- A capital and its lowercase letter, or a character that is its own lowercase. -/
theorem lowerAscii_cases (c : Char) : (c, lowerAscii c) ∈ capitals ∨ lowerAscii c = c := by
  rw [lowerAscii]
  cases hfind : capitals.find? fun p => p.1 = c with
  | none => exact Or.inr rfl
  | some p =>
    have hc : p.1 = c := by simpa using List.find?_some hfind
    left
    rw [← hc]
    exact List.mem_of_find?_eq_some hfind

theorem lowerAscii_of_le (h : 97 ≤ c.toNat) : lowerAscii c = c := by
  have hcapitals : ∀ p ∈ capitals, p.1.toNat < 97 := by decide
  have hnone : (capitals.find? fun p => p.1 = c) = none := by
    rw [List.find?_eq_none]
    intro p hp heq
    have hlt := hcapitals p hp
    rw [of_decide_eq_true heq] at hlt
    omega
  rw [lowerAscii, hnone]
  rfl

/-- Letter or digit, and the folded character, are the same of a lowercased character. -/
theorem lowerAscii_same (c : Char) :
    (isLowerAscii (lowerAscii c) || isUpperAscii (lowerAscii c) || isDigitAscii (lowerAscii c))
      = (isLowerAscii c || isUpperAscii c || isDigitAscii c)
    ∧ foldAscii (lowerAscii c) = foldAscii c := by
  have hcapitals : ∀ p ∈ capitals,
      (isLowerAscii p.2 || isUpperAscii p.2 || isDigitAscii p.2)
        = (isLowerAscii p.1 || isUpperAscii p.1 || isDigitAscii p.1)
      ∧ foldAscii p.2 = foldAscii p.1 := by decide
  rcases lowerAscii_cases c with hmem | heq
  · exact hcapitals _ hmem
  · rw [heq]
    exact ⟨rfl, rfl⟩

/-- The tables on ASCII; what is beyond it is no letter. -/
def asciiTable : CharTable where
  isAlphabetic c := isLowerAscii c || isUpperAscii c
  isNumeric := isDigitAscii
  isUppercase := isUpperAscii
  isLowercase := isLowerAscii
  lowerChar c := [lowerAscii c]
  endsWord _ _ := false
  fold := foldAscii
  delimiters := List.forall_mem_cons.mpr
    ⟨by decide, List.forall_mem_cons.mpr ⟨by decide, List.forall_mem_singleton.mpr (by decide)⟩⟩
  lower_delimiters := by
    intro c d hd hdelimiter
    obtain rfl := List.mem_singleton.mp hd
    have hcapitals : ∀ p ∈ capitals, p.2 ∉ [' ', '"', '_'] := by decide
    exact (lowerAscii_cases c).resolve_left fun hmem => hcapitals _ hmem hdelimiter
  lower_underscore := by decide
  lower_cases := fun c => Or.inl ⟨lowerAscii c, rfl, lowerAscii_same c⟩
  sigma := List.forall_mem_cons.mpr ⟨by decide, List.forall_mem_singleton.mpr (by decide)⟩
  ascii := by
    intro c hlo hhi
    have hlo' : 97 ≤ c.toNat := hlo
    have hhi' : c.toNat ≤ 122 := hhi
    have hlower := lowerAscii_of_le hlo'
    have hsigma : ¬ (c = 'Σ' ∨ c = 'ς') := by
      rintro (rfl | rfl)
      · exact absurd hhi' (by decide)
      · exact absurd hhi' (by decide)
    refine ⟨?_, ?_, ?_, by rw [hlower], by rw [foldAscii, if_neg hsigma, hlower]⟩
    · simp [isLowerAscii, hlo', hhi']
    · simp only [isDigitAscii, Bool.and_eq_false_imp, decide_eq_true_eq, decide_eq_false_iff_not]
      omega
    · simp only [isUpperAscii, Bool.and_eq_false_imp, decide_eq_true_eq, decide_eq_false_iff_not]
      omega

theorem lowersPlainly_ascii (c : Char) : asciiTable.LowersPlainly c :=
  Or.inr ⟨lowerAscii c, rfl, lowerAscii_same c⟩

theorem agrees_parseConfig : Agrees asciiTable "how does parseConfig work".toList := by
  rw [agrees_iff fun c _ => lowersPlainly_ascii c]
  have hvisible : (asciiTable.words "how does parseConfig work".toList).all
      (fun word => word.any fun c => c ≠ '_') = true := by decide
  refine ⟨fun word hword => ?_, fun honly => absurd honly (by decide)⟩
  simpa using List.all_eq_true.mp hvisible word hword

/-- A query `inTo` keeps the word and not its parts, and misses the text `in`. -/
theorem not_agrees_inTo : ¬ Agrees asciiTable "inTo".toList := by
  intro h
  have hmatch := h.finds "in".toList "in".toList (by decide) "in".toList (by decide) rfl
    (Or.inr (by decide))
  exact absurd hmatch (by decide)

end Search
end Inkentry
