/-
  Inkentry.Lib.WhatwgPath

  The path that a URL gets from text behind a base: the same host and port
  whatever the text (`exists_parts`), and the path of the base with the segments
  of the text pushed on it (`pathParser_append`).  Percent-encoding a text twice,
  with any two sets, is undone by decoding it once where the first set has the
  percent sign and all that is not ASCII (`percentDecode_percentEncode`).
-/

import Inkentry.Lib.WhatwgText

namespace Whatwg

open Ip

/-! ## Percent-encoding -/

/-- The bytes of a text once its percent-encoded bytes are decoded. -/
def percentDecode : List Char → List UInt8
  | [] => []
  | '%' :: a :: b :: rest =>
    match toDigit 16 a, toDigit 16 b with
    | some high, some low => .ofNat (high * 16 + low) :: percentDecode rest
    | _, _ => String.utf8EncodeChar '%' ++ percentDecode (a :: b :: rest)
  | c :: rest => String.utf8EncodeChar c ++ percentDecode rest

section Percent

variable {c : Char} {rest : List Char} {inSet : Char → Bool}

theorem percentDecode_cons (hc : c ≠ '%') (rest : List Char) :
    percentDecode (c :: rest) = String.utf8EncodeChar c ++ percentDecode rest := by
  rw [percentDecode.eq_def]
  split
  case h_1 heq => cases heq
  case h_2 heq => exact absurd (List.cons.inj heq).1 hc
  case h_3 heq =>
    obtain ⟨rfl, rfl⟩ := List.cons.inj heq
    rfl

theorem toDigit_hexDigit {n : ℕ} (h : n < 16) : toDigit 16 (hexDigit n) = some n := by
  have hall : ∀ n < 16, toDigit 16 (hexDigit n) = some n := by decide
  exact hall n h

theorem percentDecode_encodeByte (b : UInt8) (rest : List Char) :
    percentDecode (percentEncodeByte b ++ rest) = b :: percentDecode rest := by
  have hb : b.toNat < 256 := b.toNat_lt
  have hvalue : b.toNat / 16 * 16 + b.toNat % 16 = b.toNat := by omega
  show percentDecode ('%' :: hexDigit (b.toNat / 16) :: hexDigit (b.toNat % 16) :: rest) = _
  rw [percentDecode, toDigit_hexDigit (by omega), toDigit_hexDigit (by omega)]
  simp only [hvalue, UInt8.ofNat_toNat]

theorem percentDecode_encodeBytes (bytes : List UInt8) (rest : List Char) :
    percentDecode (bytes.flatMap percentEncodeByte ++ rest) = bytes ++ percentDecode rest := by
  induction bytes with
  | nil => rfl
  | cons b bytes ih =>
    rw [List.flatMap_cons, List.append_assoc, percentDecode_encodeByte, ih]
    rfl

/-- What holds of the percent sign and of the hexadecimal digits holds of an encoded byte. -/
theorem of_mem_encodeByte {b : UInt8} {p : Char → Prop} (hpercent : p '%')
    (hhex : ∀ n < 16, p (hexDigit n)) (h : c ∈ percentEncodeByte b) : p c := by
  have hb : b.toNat < 256 := b.toNat_lt
  rcases List.mem_cons.mp h with rfl | h
  · exact hpercent
  · rcases List.mem_cons.mp h with rfl | h
    · exact hhex _ (by omega)
    · obtain rfl := List.mem_singleton.mp h
      exact hhex _ (by omega)

theorem percentEncode_append (inSet : Char → Bool) (text text' : List Char) :
    percentEncode inSet (text ++ text') = percentEncode inSet text ++ percentEncode inSet text' :=
  List.flatMap_append

theorem percentEncode_eq_self {text : List Char} (h : ∀ c ∈ text, inSet c = false) :
    percentEncode inSet text = text := by
  induction text with
  | nil => rfl
  | cons c text ih =>
    rw [percentEncode, List.flatMap_cons, h c List.mem_cons_self]
    exact congrArg (c :: ·) (ih fun d hd => h d (List.mem_cons_of_mem _ hd))

theorem percentEncode_cons (inSet : Char → Bool) (c : Char) (text : List Char) :
    percentEncode inSet (c :: text) = percentEncode inSet [c] ++ percentEncode inSet text :=
  percentEncode_append inSet [c] text

theorem percentDecode_percentEncode_cons (hc : c ≠ '%') (inSet : Char → Bool) (rest : List Char) :
    percentDecode (percentEncode inSet [c] ++ rest) = String.utf8EncodeChar c ++ percentDecode rest := by
  rw [percentEncode, List.flatMap_cons, List.flatMap_nil, List.append_nil]
  split
  · exact percentDecode_encodeBytes _ rest
  · exact percentDecode_cons hc rest

/-- Text that was encoded, and encoded again in a path, is decoded at once. -/
theorem percentDecode_percentEncode (hset : inSet '%' = true) (text : List Char) :
    percentDecode (percentEncode inPathSet (percentEncode inSet text)) = Utf8.encode text := by
  induction text with
  | nil => rfl
  | cons c text ih =>
    rw [percentEncode_cons, percentEncode_append, Utf8.encode_cons, ← ih]
    by_cases hc : inSet c = true
    · have hencoded : percentEncode inSet [c] = (String.utf8EncodeChar c).flatMap percentEncodeByte := by
        rw [percentEncode, List.flatMap_cons, if_pos hc, List.flatMap_nil, List.append_nil]
      rw [hencoded, percentEncode_eq_self, percentDecode_encodeBytes]
      intro d hd
      obtain ⟨b, -, hb⟩ := List.mem_flatMap.mp hd
      exact of_mem_encodeByte (p := (inPathSet · = false)) (by decide) (by decide) hb
    · have hpercent : c ≠ '%' := by
        rintro rfl
        exact hc hset
      have hplain : ∀ d ∈ [c], inSet d = false := by simpa using hc
      rw [percentEncode_eq_self hplain, percentDecode_percentEncode_cons hpercent]

theorem percentDecode_percentEncode_self (hset : inSet '%' = true) (text : List Char) :
    percentDecode (percentEncode inSet text) = Utf8.encode text := by
  induction text with
  | nil => rfl
  | cons c text ih =>
    rw [percentEncode_cons, Utf8.encode_cons, ← ih]
    by_cases hc : inSet c = true
    · rw [percentEncode, List.flatMap_cons, if_pos hc, List.flatMap_nil, List.append_nil,
        percentDecode_encodeBytes]
    · have hpercent : c ≠ '%' := by
        rintro rfl
        exact hc hset
      exact percentDecode_percentEncode_cons hpercent inSet _

end Percent

/-! ## Dot segments -/

section Dots

variable {segment : List Char}

theorem toLower_of_not_upper {c : Char} (h : ¬('A' ≤ c ∧ c ≤ 'Z')) : c.toLower = c := dif_neg h

theorem of_toLower {c d : Char} (h : c.toLower = d) (hd : d ∈ ['.', '%', '2']) : c = d := by
  by_cases hupper : 'A' ≤ c ∧ c ≤ 'Z'
  · exfalso
    have hle : 65 ≤ c.toNat ∧ c.toNat ≤ 90 := hupper
    have hall : ∀ n < 91, 65 ≤ n → (Char.ofNat n).toLower ∉ ['.', '%', '2'] := by decide
    have := hall c.toNat (by omega) hle.1
    rw [Char.ofNat_toNat, h] at this
    exact this hd
  · exact (toLower_of_not_upper hupper).symm.trans h

theorem toLower_eq_e {c : Char} (h : c.toLower = 'e') : c = 'e' ∨ c = 'E' := by
  by_cases hupper : 'A' ≤ c ∧ c ≤ 'Z'
  · have hle : 65 ≤ c.toNat ∧ c.toNat ≤ 90 := hupper
    have hall : ∀ n < 91, 65 ≤ n → (Char.ofNat n).toLower = 'e' → Char.ofNat n = 'E' := by decide
    have := hall c.toNat (by omega) hle.1
    rw [Char.ofNat_toNat] at this
    exact .inr (this h)
  · exact .inl ((toLower_of_not_upper hupper).symm.trans h)

theorem percentDecode_dot (rest : List Char) : percentDecode ('.' :: rest) = 46 :: percentDecode rest := by
  rw [percentDecode_cons (by decide)]
  rfl

theorem percentDecode_encodedDot {e : Char} (he : e = 'e' ∨ e = 'E') (rest : List Char) :
    percentDecode ('%' :: '2' :: e :: rest) = 46 :: percentDecode rest := by
  rcases he with rfl | rfl <;> rfl

/-- The text of a dot segment that begins with a dot or with the encoding of one. -/
theorem exists_of_dot (segment more : List Char) (h : segment.map Char.toLower = '.' :: more
    ∨ segment.map Char.toLower = '%' :: '2' :: 'e' :: more) :
    ∃ rest, rest.map Char.toLower = more ∧ percentDecode segment = 46 :: percentDecode rest := by
  rcases h with h | h
  · obtain ⟨c, rest, rfl, hc, hmore⟩ := List.map_eq_cons_iff.mp h
    exact ⟨rest, hmore, by rw [of_toLower hc (by decide), percentDecode_dot]⟩
  · obtain ⟨a, _, rfl, ha, h⟩ := List.map_eq_cons_iff.mp h
    obtain ⟨b, _, rfl, hb, h⟩ := List.map_eq_cons_iff.mp h
    obtain ⟨e, rest, rfl, he, hmore⟩ := List.map_eq_cons_iff.mp h
    exact ⟨rest, hmore, by rw [of_toLower ha (by decide), of_toLower hb (by decide),
      percentDecode_encodedDot (toLower_eq_e he)]⟩

theorem percentDecode_of_isSingleDot (h : isSingleDot segment = true) : percentDecode segment = [46] := by
  simp only [isSingleDot, List.contains_iff_mem, List.mem_cons, List.not_mem_nil, or_false] at h
  obtain ⟨rest, hrest, hdecode⟩ := exists_of_dot segment [] h
  rw [hdecode, List.map_eq_nil_iff.mp hrest]
  rfl

theorem percentDecode_of_isDoubleDot (h : isDoubleDot segment = true) :
    percentDecode segment = [46, 46] := by
  have hdots : ∃ more, (segment.map Char.toLower = '.' :: more
      ∨ segment.map Char.toLower = '%' :: '2' :: 'e' :: more) ∧ (more = ".".toList ∨ more = "%2e".toList) := by
    simp only [isDoubleDot, List.contains_iff_mem, List.mem_cons, List.not_mem_nil, or_false] at h
    rcases h with h | h | h | h
    · exact ⟨_, .inl h, .inl rfl⟩
    · exact ⟨_, .inl h, .inr rfl⟩
    · exact ⟨_, .inr h, .inl rfl⟩
    · exact ⟨_, .inr h, .inr rfl⟩
  obtain ⟨more, hfirst, hsecond⟩ := hdots
  obtain ⟨rest, hrest, hdecode⟩ := exists_of_dot segment more hfirst
  obtain ⟨rest', hrest', hdecode'⟩ := exists_of_dot rest [] (by rwa [hrest])
  rw [hdecode, hdecode', List.map_eq_nil_iff.mp hrest']
  rfl

end Dots

/-! ## Paths -/

section Paths

variable {front rest text more : List Char}

theorem splitOnP_append (back : List Char) (hfront : ∀ d ∈ front, isSlash d = false) :
    (front ++ back).splitOnP isSlash = (back.splitOnP isSlash).modifyHead (front ++ ·) := by
  induction front with
  | nil =>
    rw [List.nil_append]
    cases back.splitOnP isSlash <;> rfl
  | cons d front ih =>
    rw [List.cons_append, List.splitOnP_cons_eq_if_modifyHead, if_neg,
      ih fun d hd => hfront d (List.mem_cons_of_mem _ hd)]
    · cases back.splitOnP isSlash <;> rfl
    · rw [hfront d List.mem_cons_self]
      decide

/-- The path that a text in front of a slash leaves. -/
def pathBefore (text : List Char) : List (List Char) :=
  if text = [] then [] else (text.tail.splitOnP isSlash).foldl pushSegment []

/-- The path of a text with a slash in it: the segments behind the slash are pushed on the path before. -/
theorem pathParser_append (htext : ∀ c ∈ text.head?, isSlash c = true) (more : List Char) :
    pathParser (text ++ '/' :: more)
      = pushLast ((more.splitOnP isSlash).dropLast.foldl pushSegment (pathBefore text))
          ((more.splitOnP isSlash).getLast?.getD []) := by
  cases text with
  | nil => rfl
  | cons c text =>
    have hslash : isSlash c = true := htext c rfl
    have hne : more.splitOnP isSlash ≠ [] := List.splitOnP_ne_nil isSlash more
    have hsplit : (text ++ '/' :: more).splitOnP isSlash
        = text.splitOnP isSlash ++ more.splitOnP isSlash :=
      List.splitOnP_append_cons text more (by decide)
    have hsegments : (if (c :: text ++ '/' :: more).head?.any isSlash then (c :: text ++ '/' :: more).tail
        else c :: text ++ '/' :: more) = text ++ '/' :: more := if_pos hslash
    rw [pathParser, hsegments, hsplit, pathBefore, if_neg (List.cons_ne_nil c text), List.tail_cons,
      List.dropLast_append_of_ne_nil hne, List.foldl_append, List.getLast?_append_of_ne_nil _ hne]

/-- Text that is read behind a base as it stands: without control characters, spaces, and marks that
end a path. -/
def IsPathText (text : List Char) : Prop :=
  ∀ c ∈ text, isControlOrSpace c = false ∧ isPathChar c = true

theorem cleanedBack_append (rest : List Char) (hmore : IsPathText more) :
    cleanedBack (rest ++ '/' :: more) = rest.filter (!isTabOrNewline ·) ++ '/' :: more := by
  have hback : ∀ c ∈ '/' :: more, isControlOrSpace c = false := by
    intro c hc
    rcases List.mem_cons.mp hc with rfl | hc
    · decide
    · exact (hmore c hc).1
  have hlast : (rest ++ '/' :: more).rdropWhile isControlOrSpace = rest ++ '/' :: more := by
    refine List.rdropWhile_eq_self_iff.mpr fun hne => ?_
    rw [List.getLast_append_of_ne_nil _ (List.cons_ne_nil '/' more), hback _ (List.getLast_mem _)]
    decide
  have hfilter : ('/' :: more).filter (!isTabOrNewline ·) = '/' :: more := by
    refine List.filter_eq_self.mpr fun c hc => ?_
    rw [tab_of_control (hback c hc)]
    rfl
  rw [cleanedBack, hlast, List.filter_append, hfilter]

/-- A base with a slash behind it is no URL, or it has a host whatever follows the slash. -/
theorem exists_parts (codec : Codec) (scheme : List Char) (default : ℕ) (rest : List Char) :
    parseSpecial codec scheme default ("//".toList ++ (rest ++ ['/'])) = none
    ∨ ∃ host port text, (∀ c ∈ text.head?, isSlash c = true ∨ isPathChar c = false)
      ∧ ∀ more, parseSpecial codec scheme default ("//".toList ++ (rest ++ '/' :: more)) = some
        { scheme := scheme
          host := host
          port := port
          path := pathParser ((text ++ '/' :: more).takeWhile isPathChar)
          queryAndFragment := (text ++ '/' :: more).dropWhile isPathChar } := by
  set back := rest.dropWhile isSlash with hback
  have hsplit : ∀ more, ("//".toList ++ (rest ++ '/' :: more)).dropWhile isSlash
      = if back = [] then more.dropWhile isSlash else back ++ '/' :: more := by
    intro more
    show (rest ++ '/' :: more).dropWhile isSlash = _
    rw [List.dropWhile_append, ← hback]
    by_cases hnil : back = []
    · rw [if_pos (by simp [hnil]), if_pos hnil]
      rfl
    · rw [if_neg (by simpa using hnil), if_neg hnil]
  by_cases hnil : back = []
  · -- only slashes: the host is empty
    refine .inl ?_
    rw [parseSpecial, hsplit [], if_pos hnil]
    rfl
  · have htake : ∀ more, (back ++ '/' :: more).takeWhile isAuthorityChar
        = back.takeWhile isAuthorityChar := by
      intro more
      rw [List.takeWhile_append]
      split
      case isTrue hlen =>
        have hslash : ('/' :: more).takeWhile isAuthorityChar = [] := rfl
        rw [hslash, List.append_nil, (List.takeWhile_prefix _).eq_of_length hlen]
      case isFalse => rfl
    have hdrop : ∀ more, (back ++ '/' :: more).dropWhile isAuthorityChar
        = back.dropWhile isAuthorityChar ++ '/' :: more := by
      intro more
      rw [List.dropWhile_append]
      split
      case isTrue hempty =>
        rw [List.isEmpty_iff.mp hempty]
        rfl
      case isFalse => rfl
    set hostPort := (back.takeWhile isAuthorityChar).rtakeWhile (· ≠ '@') with hhostPort
    have hparse : ∀ more, parseSpecial codec scheme default ("//".toList ++ (rest ++ '/' :: more))
        = (hostParser codec (hostText false hostPort)).bind fun host =>
          (portParser default (hostPort.drop (hostText false hostPort).length)).map fun port =>
            { scheme := scheme
              host := host
              port := port
              path := pathParser
                ((back.dropWhile isAuthorityChar ++ '/' :: more).takeWhile isPathChar)
              queryAndFragment :=
                (back.dropWhile isAuthorityChar ++ '/' :: more).dropWhile isPathChar } := by
      intro more
      rw [parseSpecial, hsplit more, if_neg hnil, htake more, hdrop more]
    cases hhost : hostParser codec (hostText false hostPort) with
    | none =>
      left
      rw [hparse [], hhost]
      rfl
    | some host =>
      cases hport : portParser default (hostPort.drop (hostText false hostPort).length) with
      | none =>
        left
        rw [hparse [], hhost, hport]
        rfl
      | some port =>
        refine .inr ⟨host, port, back.dropWhile isAuthorityChar, fun c hc => ?_, fun more => ?_⟩
        · have hend := List.head?_dropWhile_not isAuthorityChar back
          rw [Option.mem_def.mp hc] at hend
          simp only [isAuthorityChar, Bool.not_eq_true', Bool.not_eq_false', Bool.or_eq_true,
            decide_eq_true_eq] at hend
          rcases hend with (h | rfl) | rfl
          · exact .inl h
          · exact .inr (by decide)
          · exact .inr (by decide)
        · rw [hparse more, hhost, hport]
          rfl

end Paths

end Whatwg
