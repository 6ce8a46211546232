/-
  Inkentry.Lib.Utf8

  Bytes read as text the lossy way: characters where the bytes encode one, and
  a replacement character for every maximal part of an encoding that is cut
  short or wrong.

  Text survives a write and a read (`lossy_encode`), bytes survive a read and a
  write exactly when they encode text (`encode_lossy_iff`), and a line feed is
  read as a line feed wherever it stands, so bytes may be read line by line
  (`splitOn_lossy`).
-/

import Mathlib.Data.List.Basic

namespace Utf8

/-! ## Encoding -/

def encode (text : List Char) : List UInt8 := text.flatMap String.utf8EncodeChar

/-- The bytes encode some text. -/
def Valid (bytes : List UInt8) : Prop := ∃ text, bytes = encode text

@[simp] theorem encode_nil : encode [] = [] := rfl

@[simp] theorem encode_cons (c : Char) (text : List Char) :
    encode (c :: text) = String.utf8EncodeChar c ++ encode text := rfl

/-! ## The character at the front -/

variable {bytes : List UInt8}

/-- The character the bytes begin with. -/
def decodeChar (bytes : List UInt8) : Option Char := bytes.toByteArray.utf8DecodeChar? 0

theorem decodeChar_eq_some_iff {c : Char} :
    decodeChar bytes = some c ↔ ∃ rest, bytes = String.utf8EncodeChar c ++ rest := by
  constructor
  · intro h
    obtain ⟨rest, hrest⟩ := ByteArray.exists_of_utf8DecodeChar?_eq_some h
    have hdata := congrArg (fun b : ByteArray => b.data.toList) hrest
    exact ⟨rest.data.toList, by simpa using hdata⟩
  · rintro ⟨rest, rfl⟩
    show ByteArray.utf8DecodeChar? (String.utf8EncodeChar c ++ rest).toByteArray 0 = some c
    rw [List.toByteArray_append]
    exact ByteArray.utf8DecodeChar?_utf8EncodeChar_append

theorem length_utf8EncodeChar_pos (c : Char) : 0 < (String.utf8EncodeChar c).length := by
  rw [String.length_utf8EncodeChar]
  exact c.utf8Size_pos

/-! ## Lossy decoding -/

/-- The byte continues an encoding. -/
def isCont (b : UInt8) : Bool := 0x80 ≤ b && b ≤ 0xBF

/-- The byte may be the second of an encoding of three or four bytes. -/
def isSecond (first b : UInt8) : Bool :=
  first == 0xE0 && (0xA0 ≤ b && b ≤ 0xBF)
    || 0xE1 ≤ first && first ≤ 0xEC && isCont b
    || first == 0xED && (0x80 ≤ b && b ≤ 0x9F)
    || 0xEE ≤ first && first ≤ 0xEF && isCont b
    || first == 0xF0 && (0x90 ≤ b && b ≤ 0xBF)
    || 0xF1 ≤ first && first ≤ 0xF3 && isCont b
    || first == 0xF4 && (0x80 ≤ b && b ≤ 0x8F)

/-- The number of bytes that one replacement character stands for, where the bytes
    begin with no character: what there is of an encoding before it goes wrong. -/
def invalidLen : List UInt8 → Nat
  | first :: second :: third :: _ =>
    if isSecond first second then if isCont third && 0xF0 ≤ first then 3 else 2 else 1
  | [first, second] => if isSecond first second then 2 else 1
  | _ => 1

def replacement : Char := Char.ofNat 0xFFFD

/-- Reads at most as many characters as given. -/
def lossyUpTo : Nat → List UInt8 → List Char
  | 0, _ => []
  | _ + 1, [] => []
  | n + 1, b :: bytes =>
    match decodeChar (b :: bytes) with
    | some c => c :: lossyUpTo n ((b :: bytes).drop c.utf8Size)
    | none => replacement :: lossyUpTo n ((b :: bytes).drop (invalidLen (b :: bytes)))

/-- The text of the bytes. -/
def lossy (bytes : List UInt8) : List Char := lossyUpTo bytes.length bytes

theorem invalidLen_pos (bytes : List UInt8) : 0 < invalidLen bytes := by
  unfold invalidLen
  split
  · split
    · split <;> omega
    · omega
  · split <;> omega
  · omega

theorem lossyUpTo_of_length_le {n : Nat} (h : bytes.length ≤ n) :
    lossyUpTo n bytes = lossy bytes := by
  -- any two amounts of fuel that cover the bytes read the same
  have hboth : ∀ (m k : Nat) (bytes : List UInt8), bytes.length ≤ m → bytes.length ≤ k →
      lossyUpTo m bytes = lossyUpTo k bytes := by
    intro m
    induction m with
    | zero =>
      intro k bytes hm _
      obtain rfl := List.length_eq_zero_iff.mp (Nat.le_zero.mp hm)
      cases k <;> rfl
    | succ m ih =>
      intro k bytes hm hk
      cases bytes with
      | nil => cases k <;> rfl
      | cons b bytes =>
        cases k with
        | zero => exact absurd hk (by simp)
        | succ k =>
          have hstep : ∀ j, 0 < j → lossyUpTo m ((b :: bytes).drop j)
              = lossyUpTo k ((b :: bytes).drop j) := by
            intro j hj
            have hlen := List.length_drop (i := j) (l := b :: bytes)
            exact ih k _ (by omega) (by omega)
          rw [lossyUpTo, lossyUpTo]
          cases decodeChar (b :: bytes) with
          | some c => exact congrArg (c :: ·) (hstep _ c.utf8Size_pos)
          | none => exact congrArg (replacement :: ·) (hstep _ (invalidLen_pos _))
  exact hboth n bytes.length bytes h (Nat.le_refl _)

@[simp] theorem lossy_nil : lossy [] = [] := rfl

theorem lossy_utf8EncodeChar_append (c : Char) (rest : List UInt8) :
    lossy (String.utf8EncodeChar c ++ rest) = c :: lossy rest := by
  have hdecode : decodeChar (String.utf8EncodeChar c ++ rest) = some c :=
    decodeChar_eq_some_iff.mpr ⟨rest, rfl⟩
  have hdrop : (String.utf8EncodeChar c ++ rest).drop c.utf8Size = rest := by
    rw [← String.length_utf8EncodeChar]
    exact List.drop_left
  have hpos := length_utf8EncodeChar_pos c
  cases hbytes : String.utf8EncodeChar c ++ rest with
  | nil =>
    have hlen := congrArg List.length hbytes
    rw [List.length_append, List.length_nil] at hlen
    omega
  | cons b bytes =>
    rw [hbytes] at hdecode hdrop
    have hlen := congrArg List.length hbytes
    rw [List.length_append, List.length_cons] at hlen
    show lossyUpTo (bytes.length + 1) (b :: bytes) = _
    rw [lossyUpTo, hdecode]
    show c :: lossyUpTo bytes.length ((b :: bytes).drop c.utf8Size) = _
    rw [hdrop, lossyUpTo_of_length_le (by omega)]

theorem lossy_of_decodeChar_eq_none (hne : bytes ≠ []) (h : decodeChar bytes = none) :
    lossy bytes = replacement :: lossy (bytes.drop (invalidLen bytes)) := by
  cases bytes with
  | nil => exact absurd rfl hne
  | cons b bytes =>
    have hpos := invalidLen_pos (b :: bytes)
    have hlen := List.length_drop (i := invalidLen (b :: bytes)) (l := b :: bytes)
    rw [List.length_cons] at hlen
    show lossyUpTo (bytes.length + 1) (b :: bytes) = _
    rw [lossyUpTo, h]
    show replacement :: lossyUpTo bytes.length _ = _
    rw [lossyUpTo_of_length_le (by omega)]

theorem lossy_encode (text : List Char) : lossy (encode text) = text := by
  induction text with
  | nil => rfl
  | cons c text ih => rw [encode_cons, lossy_utf8EncodeChar_append, ih]

theorem encode_inj {text text' : List Char} (h : encode text = encode text') : text = text' := by
  rw [← lossy_encode text, h, lossy_encode]

/-- Bytes are read back as they were exactly when they encode text. -/
theorem encode_lossy_iff : encode (lossy bytes) = bytes ↔ Valid bytes := by
  constructor
  · exact fun h => ⟨lossy bytes, h.symm⟩
  · rintro ⟨text, rfl⟩
    rw [lossy_encode]

/-! ## Line by line -/

theorem ne_ofNat {b : UInt8} {n : Nat} (hb : b.toNat < 128) (h : 128 ≤ n % 256) :
    b ≠ UInt8.ofNat n := by
  intro heq
  have hnat := congrArg UInt8.toNat heq
  rw [UInt8.toNat_ofNat'] at hnat
  omega

/-- A byte below 128 stands in the encoding of the character of its code alone. -/
theorem toNat_eq_of_mem_utf8EncodeChar {c : Char} {b : UInt8} (hb : b.toNat < 128)
    (h : b ∈ String.utf8EncodeChar c) : c.toNat = b.toNat := by
  unfold String.utf8EncodeChar at h
  simp only at h
  split at h
  · have heq : b = UInt8.ofNat c.val.toNat := by simpa using h
    have hnat := congrArg UInt8.toNat heq
    rw [UInt8.toNat_ofNat'] at hnat
    show c.val.toNat = b.toNat
    omega
  · -- every byte of a longer encoding is at least 128
    split at h
    · rcases List.mem_cons.mp h with h | h
      · exact absurd h (ne_ofNat hb (by omega))
      · exact absurd (List.mem_singleton.mp h) (ne_ofNat hb (by omega))
    · split at h
      · rcases List.mem_cons.mp h with h | h
        · exact absurd h (ne_ofNat hb (by omega))
        · rcases List.mem_cons.mp h with h | h
          · exact absurd h (ne_ofNat hb (by omega))
          · exact absurd (List.mem_singleton.mp h) (ne_ofNat hb (by omega))
      · rcases List.mem_cons.mp h with h | h
        · exact absurd h (ne_ofNat hb (by omega))
        · rcases List.mem_cons.mp h with h | h
          · exact absurd h (ne_ofNat hb (by omega))
          · rcases List.mem_cons.mp h with h | h
            · exact absurd h (ne_ofNat hb (by omega))
            · exact absurd (List.mem_singleton.mp h) (ne_ofNat hb (by omega))

/-- The line feed is the one character with a line feed in its encoding. -/
theorem lf_mem_utf8EncodeChar {c : Char} (h : 10 ∈ String.utf8EncodeChar c) : c = '\n' :=
  Char.ext (UInt32.toNat_inj.mp (toNat_eq_of_mem_utf8EncodeChar (by decide) h))

@[simp] theorem utf8EncodeChar_lf : String.utf8EncodeChar '\n' = [10] := by decide

theorem isSecond_lf (first : UInt8) : isSecond first 10 = false := by
  simp [isSecond, isCont]

theorem invalidLen_append_lf {front : List UInt8} (hne : front ≠ []) (back : List UInt8) :
    invalidLen (front ++ 10 :: back) = invalidLen front ∧ invalidLen front ≤ front.length := by
  match front, hne with
  | [first], _ => 
    cases back with
    | nil => simp [invalidLen, isSecond_lf]
    | cons b back => simp [invalidLen, isSecond_lf]
  | [first, second], _ =>
    have hcont : isCont 10 = false := by decide
    refine ⟨by simp [invalidLen, hcont], ?_⟩
    simp only [invalidLen]
    split <;> simp
  | first :: second :: third :: rest, _ =>
    refine ⟨rfl, ?_⟩
    simp only [invalidLen, List.length_cons]
    split
    · split <;> omega
    · omega

theorem lossy_append_lf (front back : List UInt8) :
    lossy (front ++ 10 :: back) = lossy front ++ '\n' :: lossy back := by
  induction hn : front.length using Nat.strongRecOn generalizing front with
  | ind n ih =>
    by_cases hne : front = []
    · subst hne
      exact lossy_utf8EncodeChar_append '\n' back
    · have hdrop {j : Nat} (hj : 0 < j) (hle : j ≤ front.length) :
          lossy ((front ++ 10 :: back).drop j) = lossy (front.drop j) ++ '\n' :: lossy back := by
        rw [List.drop_append_of_le_length hle]
        have hlen := List.length_drop (i := j) (l := front)
        have hpos := List.length_pos_of_ne_nil hne
        exact ih _ (by omega) _ rfl
      cases hdecode : decodeChar front with
      | some c =>
        obtain ⟨rest, rfl⟩ := decodeChar_eq_some_iff.mp hdecode
        have hlen := String.length_utf8EncodeChar c
        have hdrop' := hdrop c.utf8Size_pos (by rw [List.length_append]; omega)
        rw [← hlen, List.append_assoc, List.drop_left, List.drop_left] at hdrop'
        rw [List.append_assoc, lossy_utf8EncodeChar_append, lossy_utf8EncodeChar_append, hdrop']
        rfl
      | none =>
        obtain ⟨hsame, hle⟩ := invalidLen_append_lf hne back
        have hdecode' : decodeChar (front ++ 10 :: back) = none := by
          rw [Option.eq_none_iff_forall_ne_some]
          intro c hc
          obtain ⟨rest, hrest⟩ := decodeChar_eq_some_iff.mp hc
          rcases List.append_eq_append_iff.mp hrest.symm with ⟨more, hmore, -⟩ | ⟨more, hmore, hback⟩
          · rw [decodeChar_eq_some_iff.mpr ⟨more, hmore⟩] at hdecode
            exact absurd hdecode (by simp)
          · -- an encoding that reached past the line feed would contain it
            cases more with
            | nil =>
              rw [List.append_nil] at hmore
              rw [decodeChar_eq_some_iff.mpr ⟨[], by rw [List.append_nil, hmore]⟩] at hdecode
              exact absurd hdecode (by simp)
            | cons b more =>
              obtain ⟨rfl, -⟩ := List.cons_eq_cons.mp hback
              have hlf := lf_mem_utf8EncodeChar (c := c) (by rw [hmore]; simp)
              rw [hlf, utf8EncodeChar_lf] at hmore
              have hlen := congrArg List.length hmore
              have hpos := List.length_pos_of_ne_nil hne
              simp only [List.length_append, List.length_cons, List.length_nil] at hlen
              omega
        rw [lossy_of_decodeChar_eq_none (by simp) hdecode', lossy_of_decodeChar_eq_none hne hdecode,
          hsame, hdrop (invalidLen_pos front) hle]
        rfl

theorem lf_not_mem_lossy (h : 10 ∉ bytes) : '\n' ∉ lossy bytes := by
  -- by length, as one step reads a whole character or a whole invalid sequence
  induction hn : bytes.length using Nat.strongRecOn generalizing bytes with
  | ind n ih =>
    by_cases hne : bytes = []
    · subst hne
      exact List.not_mem_nil
    · have hpos := List.length_pos_of_ne_nil hne
      have hdrop {j : Nat} (hj : 0 < j) : '\n' ∉ lossy (bytes.drop j) := by
        have hlen := List.length_drop (i := j) (l := bytes)
        exact ih _ (by omega) (fun hmem => h (List.mem_of_mem_drop hmem)) rfl
      cases hdecode : decodeChar bytes with
      | some c =>
        obtain ⟨rest, rfl⟩ := decodeChar_eq_some_iff.mp hdecode
        have hrest := hdrop c.utf8Size_pos
        rw [← String.length_utf8EncodeChar c, List.drop_left] at hrest
        rw [lossy_utf8EncodeChar_append, List.mem_cons]
        rintro (hc | hmem)
        · refine h (List.mem_append_left _ ?_)
          rw [← hc, utf8EncodeChar_lf]
          exact List.mem_singleton_self _
        · exact hrest hmem
      | none =>
        rw [lossy_of_decodeChar_eq_none hne hdecode, List.mem_cons]
        rintro (hc | hmem)
        · exact absurd hc (by decide)
        · exact hdrop (invalidLen_pos bytes) hmem

theorem splitOn_lossy (bytes : List UInt8) :
    (lossy bytes).splitOn '\n' = (bytes.splitOn 10).map lossy := by
  induction hn : bytes.length using Nat.strongRecOn generalizing bytes with
  | ind n ih =>
    by_cases hlf : 10 ∈ bytes
    · obtain ⟨front, back, rfl, hfront⟩ := List.eq_append_cons_of_mem hlf
      have hback := ih back.length (by simp at hn; omega) back rfl
      rw [lossy_append_lf, List.splitOn_append_cons_self_of_not_mem hfront,
        List.splitOn_append_cons_self_of_not_mem (lf_not_mem_lossy hfront), hback]
      rfl
    · rw [List.splitOn_eq_singleton hlf, List.splitOn_eq_singleton (lf_not_mem_lossy hlf)]
      rfl

theorem encode_append (text text' : List Char) : encode (text ++ text') = encode text ++ encode text' :=
  List.flatMap_append

theorem lf_not_mem_encode {text : List Char} (h : '\n' ∉ text) : 10 ∉ encode text := by
  intro hmem
  obtain ⟨c, hc, hbytes⟩ := List.mem_flatMap.mp hmem
  exact h (lf_mem_utf8EncodeChar hbytes ▸ hc)

theorem splitOn_encode (text : List Char) :
    (encode text).splitOn 10 = (text.splitOn '\n').map encode := by
  induction hn : text.length using Nat.strongRecOn generalizing text with
  | ind n ih =>
    by_cases hlf : '\n' ∈ text
    · obtain ⟨front, back, rfl, hfront⟩ := List.eq_append_cons_of_mem hlf
      have hback := ih back.length (by simp at hn; omega) back rfl
      rw [encode_append, encode_cons, utf8EncodeChar_lf, List.singleton_append,
        List.splitOn_append_cons_self_of_not_mem (lf_not_mem_encode hfront),
        List.splitOn_append_cons_self_of_not_mem hfront, hback]
      rfl
    · rw [List.splitOn_eq_singleton hlf, List.splitOn_eq_singleton (lf_not_mem_encode hlf)]
      rfl

end Utf8
