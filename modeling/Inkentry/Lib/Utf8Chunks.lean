/-
  Inkentry.Lib.Utf8Chunks

  Text that arrives in chunks of bytes, each read the lossy way before the next
  is there.  A character whose encoding a chunk border cuts is read as
  replacement characters, at least two of them; every other character is read
  as it is (`seen_flatMap_lossy`).  So the text is read exactly when no border
  falls inside a character of it (`Seen.eq_iff`).
-/

import Inkentry.Lib.Utf8

namespace Utf8

/-! ## The bytes of a character -/

theorem isCont_ofNat {n : Nat} (h : 0x80 ≤ n % 256) (h' : n % 256 < 0xC0) :
    isCont (UInt8.ofNat n) = true := by
  simp only [isCont, Bool.and_eq_true, decide_eq_true_eq, UInt8.le_iff_toNat_le,
    UInt8.toNat_ofNat']
  exact ⟨h, Nat.lt_succ_iff.mp h'⟩

theorem isCont_ofNat_eq_false {n : Nat} (h : n % 256 < 0x80 ∨ 0xC0 ≤ n % 256) :
    isCont (UInt8.ofNat n) = false := by
  rw [Bool.eq_false_iff]
  intro hcont
  simp only [isCont, Bool.and_eq_true, decide_eq_true_eq, UInt8.le_iff_toNat_le,
    UInt8.toNat_ofNat'] at hcont
  have h80 : (0x80 : UInt8).toNat = 0x80 := rfl
  have hBF : (0xBF : UInt8).toNat = 0xBF := rfl
  omega

theorem utf8EncodeChar_eq_cons (c : Char) :
    ∃ first more, String.utf8EncodeChar c = first :: more ∧ isCont first = false
      ∧ ∀ b ∈ more, isCont b = true := by
  have hc : c.val.toNat < 0x110000 := by
    rcases c.valid with h | ⟨-, h⟩
    · exact Nat.lt_trans h (by decide)
    · exact h
  unfold String.utf8EncodeChar
  simp only
  split
  case isTrue h => exact ⟨_, [], rfl, isCont_ofNat_eq_false (by omega), by simp⟩
  case isFalse h =>
    split
    case isTrue h' =>
      refine ⟨_, _, rfl, isCont_ofNat_eq_false (by omega), ?_⟩
      rw [List.forall_mem_singleton]
      exact isCont_ofNat (by omega) (by omega)
    case isFalse h' =>
      split
      case isTrue h'' =>
        refine ⟨_, _, rfl, isCont_ofNat_eq_false (by omega), ?_⟩
        simp only [List.forall_mem_cons, List.not_mem_nil, false_implies, implies_true, and_true]
        exact ⟨isCont_ofNat (by omega) (by omega), isCont_ofNat (by omega) (by omega)⟩
      case isFalse h'' =>
        refine ⟨_, _, rfl, isCont_ofNat_eq_false (by omega), ?_⟩
        simp only [List.forall_mem_cons, List.not_mem_nil, false_implies, implies_true, and_true]
        exact ⟨isCont_ofNat (by omega) (by omega), isCont_ofNat (by omega) (by omega),
          isCont_ofNat (by omega) (by omega)⟩

theorem isSecond_of_isCont {first : UInt8} (h : isCont first = true) (b : UInt8) :
    isSecond first b = false := by
  simp only [isCont, Bool.and_eq_true, decide_eq_true_eq, UInt8.le_iff_toNat_le] at h
  have hBF : (0xBF : UInt8).toNat = 0xBF := rfl
  simp only [isSecond, Bool.or_eq_false_iff, Bool.and_eq_false_iff, beq_eq_false_iff_ne, ne_eq,
    decide_eq_false_iff_not, UInt8.le_iff_toNat_le, ← UInt8.toNat_inj]
  have hE0 : (0xE0 : UInt8).toNat = 0xE0 := rfl
  have hE1 : (0xE1 : UInt8).toNat = 0xE1 := rfl
  have hED : (0xED : UInt8).toNat = 0xED := rfl
  have hEE : (0xEE : UInt8).toNat = 0xEE := rfl
  have hF0 : (0xF0 : UInt8).toNat = 0xF0 := rfl
  have hF1 : (0xF1 : UInt8).toNat = 0xF1 := rfl
  have hF4 : (0xF4 : UInt8).toNat = 0xF4 := rfl
  refine ⟨⟨⟨⟨⟨⟨?_, ?_⟩, ?_⟩, ?_⟩, ?_⟩, ?_⟩, ?_⟩ <;> left <;> omega

/-- A byte that continues an encoding, where none was begun, is one replacement character. -/
theorem lossy_cons_of_isCont {b : UInt8} (h : isCont b = true) (bytes : List UInt8) :
    lossy (b :: bytes) = replacement :: lossy bytes := by
  have hdecode : decodeChar (b :: bytes) = none := by
    rw [Option.eq_none_iff_forall_ne_some]
    intro c hc
    obtain ⟨rest, hrest⟩ := decodeChar_eq_some_iff.mp hc
    obtain ⟨first, more, hfirst, hlead, -⟩ := utf8EncodeChar_eq_cons c
    rw [hfirst, List.cons_append] at hrest
    rw [(List.cons_eq_cons.mp hrest).1, hlead] at h
    exact Bool.false_ne_true h
  have hlen : invalidLen (b :: bytes) = 1 := by
    unfold invalidLen
    split
    case h_1 heq => rw [← (List.cons_eq_cons.mp heq).1, isSecond_of_isCont h, if_neg Bool.false_ne_true]
    case h_2 heq => rw [← (List.cons_eq_cons.mp heq).1, isSecond_of_isCont h, if_neg Bool.false_ne_true]
    case h_3 => rfl
  rw [lossy_of_decodeChar_eq_none (List.cons_ne_nil _ _) hdecode, hlen]
  rfl

theorem lossy_append_of_isCont {front : List UInt8} (h : ∀ b ∈ front, isCont b = true)
    (back : List UInt8) :
    lossy (front ++ back) = List.replicate front.length replacement ++ lossy back := by
  induction front with
  | nil => rfl
  | cons b front ih =>
    rw [List.forall_mem_cons] at h
    rw [List.cons_append, lossy_cons_of_isCont h.1, ih h.2]
    rfl

theorem lossy_of_append_eq {c : Char} {front back : List UInt8} (hfront : front ≠ [])
    (hback : back ≠ []) (h : front ++ back = String.utf8EncodeChar c) :
    ∃ k, 0 < k ∧ lossy front = List.replicate k replacement := by
  obtain ⟨first, more, hfirst, hlead, hmore⟩ := utf8EncodeChar_eq_cons c
  obtain ⟨b, front, rfl⟩ := List.exists_cons_of_ne_nil hfront
  rw [hfirst, List.cons_append, List.cons_eq_cons] at h
  obtain ⟨rfl, rfl⟩ := h
  have hcont : ∀ x ∈ front, isCont x = true := fun x hx => hmore x (List.mem_append_left _ hx)
  have hdecode : decodeChar (b :: front) = none := by
    rw [Option.eq_none_iff_forall_ne_some]
    intro d hd
    obtain ⟨rest, hrest⟩ := decodeChar_eq_some_iff.mp hd
    -- one encoding would begin another
    have hsame : decodeChar (String.utf8EncodeChar c) = some d := by
      rw [hfirst, ← List.cons_append, hrest, List.append_assoc]
      exact decodeChar_eq_some_iff.mpr ⟨_, rfl⟩
    have hself : decodeChar (String.utf8EncodeChar c) = some c :=
      decodeChar_eq_some_iff.mpr ⟨[], (List.append_nil _).symm⟩
    obtain rfl : c = d := Option.some.inj (hself.symm.trans hsame)
    have hlen := congrArg List.length hrest
    have hpos := List.length_pos_of_ne_nil hback
    simp only [hfirst, List.length_append, List.length_cons] at hlen
    omega
  rw [lossy_of_decodeChar_eq_none (List.cons_ne_nil _ _) hdecode]
  have hdrop : ∀ x ∈ (b :: front).drop (invalidLen (b :: front)), isCont x = true := by
    intro x hx
    have hpos := invalidLen_pos (b :: front)
    obtain ⟨j, hj⟩ := Nat.exists_eq_succ_of_ne_zero (Nat.ne_of_gt hpos)
    rw [hj, List.drop_succ_cons] at hx
    exact hcont x (List.mem_of_mem_drop hx)
  have hlossy := lossy_append_of_isCont hdrop []
  rw [List.append_nil, lossy_nil, List.append_nil] at hlossy
  exact ⟨_ + 1, Nat.succ_pos _, by rw [hlossy, List.replicate_succ]⟩

/-! ## What is read of a text that is cut -/

/-- What is read of a text that begins at an offset: replacement characters for a character
    that is cut, and the others as they are. -/
inductive Seen (cut : Nat → Prop) : Nat → List Char → List Char → Prop
  | nil {o : Nat} : Seen cut o [] []
  | whole {o : Nat} {c : Char} {text m : List Char}
      (huncut : ∀ n, cut n → ¬(o < n ∧ n < o + c.utf8Size)) (hrest : Seen cut (o + c.utf8Size) text m) :
      Seen cut o (c :: text) (c :: m)
  | split {o n k : Nat} {c : Char} {text m : List Char} (hcut : cut n) (hlo : o < n)
      (hhi : n < o + c.utf8Size) (hk : 2 ≤ k) (hrest : Seen cut (o + c.utf8Size) text m) :
      Seen cut o (c :: text) (List.replicate k replacement ++ m)

/-- No character of the text is cut. -/
def Intact (cut : Nat → Prop) : Nat → List Char → Prop
  | _, [] => True
  | o, c :: text => (∀ n, cut n → ¬(o < n ∧ n < o + c.utf8Size)) ∧ Intact cut (o + c.utf8Size) text

theorem length_encode_cons (c : Char) (text : List Char) :
    (encode (c :: text)).length = c.utf8Size + (encode text).length := by
  rw [encode_cons, List.length_append, String.length_utf8EncodeChar]

theorem intact_append {cut : Nat → Prop} {o : Nat} {text text' : List Char} :
    Intact cut o (text ++ text')
      ↔ Intact cut o text ∧ Intact cut (o + (encode text).length) text' := by
  induction text generalizing o with
  | nil => simp [Intact]
  | cons c text ih =>
    rw [List.cons_append, Intact, Intact, ih, length_encode_cons, ← Nat.add_assoc, and_assoc]

theorem intact_of_utf8Size {text : List Char} (h : ∀ c ∈ text, c.utf8Size = 1)
    (cut : Nat → Prop) (o : Nat) : Intact cut o text := by
  induction text generalizing o with
  | nil => trivial
  | cons c text ih =>
    rw [List.forall_mem_cons] at h
    exact ⟨fun n _ hn => by omega, ih h.2 _⟩

namespace Seen

variable {cut cut' : Nat → Prop} {o : Nat} {text text' m : List Char}

theorem congr (h : Seen cut o text m) (hsame : ∀ n, o < n → (cut n ↔ cut' n)) :
    Seen cut' o text m := by
  induction h with
  | nil => exact nil
  | whole huncut _ ih =>
    exact whole (fun n hn hin => huncut n ((hsame n hin.1).mpr hn) hin)
      (ih fun n hn => hsame n (by omega))
  | split hcut hlo hhi hk _ ih =>
    exact split ((hsame _ hlo).mp hcut) hlo hhi hk (ih fun n hn => hsame n (by omega))

/-- What is read is no shorter than the text, and no longer only where nothing is cut. -/
theorem length_le (h : Seen cut o text m) :
    text.length ≤ m.length ∧ (m.length ≤ text.length → m = text ∧ Intact cut o text) := by
  induction h with
  | nil => exact ⟨Nat.le_refl _, fun _ => ⟨rfl, trivial⟩⟩
  | whole huncut _ ih =>
    simp only [List.length_cons, Nat.add_le_add_iff_right]
    exact ⟨ih.1, fun hle => ⟨by rw [(ih.2 hle).1], huncut, (ih.2 hle).2⟩⟩
  | split _ _ _ hk _ ih =>
    simp only [List.length_cons, List.length_append, List.length_replicate]
    exact ⟨by omega, fun hle => absurd hle (by omega)⟩

/-- The text is read exactly when no character of it is cut. -/
theorem eq_iff (h : Seen cut o text m) : m = text ↔ Intact cut o text := by
  constructor
  · intro heq
    exact (h.length_le.2 (heq ▸ Nat.le_refl _)).2
  · intro hintact
    induction h with
    | nil => rfl
    | whole _ _ ih => rw [ih hintact.2]
    | split hcut hlo hhi _ _ _ => exact absurd ⟨hlo, hhi⟩ (hintact.1 _ hcut)

theorem append_left (h : Seen cut o (text ++ text') m) :
    ∃ front back, m = front ++ back ∧ Seen cut o text front
      ∧ Seen cut (o + (encode text).length) text' back := by
  induction text generalizing o m with
  | nil => exact ⟨[], m, rfl, nil, h⟩
  | cons c text ih =>
    rw [length_encode_cons, ← Nat.add_assoc]
    cases h with
    | whole huncut hrest =>
      obtain ⟨front, back, rfl, hfront, hback⟩ := ih hrest
      exact ⟨c :: front, back, rfl, whole huncut hfront, hback⟩
    | split hcut hlo hhi hk hrest =>
      obtain ⟨front, back, rfl, hfront, hback⟩ := ih hrest
      exact ⟨_, back, (List.append_assoc ..).symm, split hcut hlo hhi hk hfront, hback⟩

theorem mem (h : Seen cut o text m) {c : Char} (hc : c ∈ m) : c ∈ text ∨ c = replacement := by
  induction h with
  | nil => exact .inl hc
  | whole _ _ ih =>
    rcases List.mem_cons.mp hc with rfl | hc
    · exact .inl (List.mem_cons_self ..)
    · exact (ih hc).imp_left (List.mem_cons_of_mem _)
  | split _ _ _ _ _ ih =>
    rcases List.mem_append.mp hc with hc | hc
    · exact .inr (List.eq_of_mem_replicate hc)
    · exact (ih hc).imp_left (List.mem_cons_of_mem _)

/-- A line feed is a single byte, so it is always read. -/
theorem count_lf (h : Seen cut o text m) : m.count '\n' = text.count '\n' := by
  induction h with
  | nil => rfl
  | whole _ _ ih => rw [List.count_cons, List.count_cons, ih]
  | @split o n k c _ _ _ hlo hhi _ _ ih =>
    have hc : c ≠ '\n' := by
      rintro rfl
      have hsize : ('\n' : Char).utf8Size = 1 := rfl
      omega
    rw [List.count_append, List.count_cons_of_ne hc, ih, List.count_replicate,
      if_neg (by decide), Nat.zero_add]

end Seen

/-! ## Reading chunk by chunk -/

/-- The offsets at which the chunks end. -/
def borders : Nat → List (List UInt8) → List Nat
  | _, [] => []
  | o, chunk :: chunks => (o + chunk.length) :: borders (o + chunk.length) chunks

theorem le_of_mem_borders {o n : Nat} {chunks : List (List UInt8)} (h : n ∈ borders o chunks) :
    o ≤ n := by
  induction chunks generalizing o with
  | nil => exact absurd h List.not_mem_nil
  | cons chunk chunks ih =>
    rcases List.mem_cons.mp h with rfl | h
    · exact Nat.le_add_right ..
    · exact Nat.le_trans (Nat.le_add_right ..) (ih h)

theorem mem_borders_cons {o n : Nat} {chunk : List UInt8} {chunks : List (List UInt8)}
    (hn : o + chunk.length < n) :
    n ∈ borders o (chunk :: chunks) ↔ n ∈ borders (o + chunk.length) chunks := by
  rw [borders, List.mem_cons]
  exact or_iff_right (Nat.ne_of_gt hn)

theorem count_lf_lossy (bytes : List UInt8) : (lossy bytes).count '\n' = bytes.count 10 := by
  induction hn : bytes.length using Nat.strongRecOn generalizing bytes with
  | ind n ih =>
    by_cases hlf : 10 ∈ bytes
    · obtain ⟨front, back, rfl, hfront⟩ := List.eq_append_cons_of_mem hlf
      have hback := ih back.length (by simp at hn; omega) back rfl
      rw [lossy_append_lf, List.count_append, List.count_append, List.count_cons_self,
        List.count_cons_self, hback, List.count_eq_zero_of_not_mem hfront,
        List.count_eq_zero_of_not_mem (lf_not_mem_lossy hfront)]
    · rw [List.count_eq_zero_of_not_mem hlf, List.count_eq_zero_of_not_mem (lf_not_mem_lossy hlf)]

theorem count_lf_flatMap_lossy (chunks : List (List UInt8)) :
    (chunks.flatMap lossy).count '\n' = chunks.flatten.count 10 := by
  induction chunks with
  | nil => rfl
  | cons chunk chunks ih =>
    rw [List.flatMap_cons, List.flatten_cons, List.count_append, List.count_append, count_lf_lossy, ih]

theorem count_lf_encode (text : List Char) : (encode text).count 10 = text.count '\n' := by
  rw [← count_lf_lossy, lossy_encode]

section Reading

variable {trailing : List UInt8} {chunks : List (List UInt8)}

/-- What the chunks hold, from an offset on, where they begin with the rest of a cut encoding. -/
def ReadsFrom (trailing : List UInt8) (chunks : List (List UInt8)) : Prop :=
  ∀ (a : Nat) (pending : List UInt8) (text : List Char), (∀ b ∈ pending, isCont b = true) →
    chunks.flatten = pending ++ (encode text ++ trailing) →
    ∃ m junk, chunks.flatMap lossy = List.replicate pending.length replacement ++ (m ++ junk)
      ∧ Seen (· ∈ borders a chunks) (a + pending.length) text m

theorem ReadsFrom.chunk (hrest : ReadsFrom trailing chunks) {o : Nat} {chunk : List UInt8}
    {text : List Char} (h : chunk ++ chunks.flatten = encode text ++ trailing) :
    ∃ m junk, lossy chunk ++ chunks.flatMap lossy = m ++ junk
      ∧ Seen (· ∈ borders o (chunk :: chunks)) o text m := by
  obtain ⟨e, he⟩ : ∃ e, e = o + chunk.length := ⟨_, rfl⟩
  rw [borders, ← he]
  induction text generalizing o chunk with
  | nil => exact ⟨[], _, rfl, .nil⟩
  | cons c text ih =>
    have hsize := String.length_utf8EncodeChar c
    have huncut : ∀ {o' : Nat}, o' ≤ e → ∀ n, n ∈ e :: borders e chunks → ¬(o < n ∧ n < o') := by
      intro o' ho' n hn hin
      rcases List.mem_cons.mp hn with rfl | hn
      · exact absurd ho' (Nat.not_le_of_gt hin.2)
      · exact absurd (le_of_mem_borders hn) (by omega)
    have hlater : ∀ {o' : Nat} {text m : List Char}, e ≤ o' →
        Seen (· ∈ borders e chunks) o' text m → Seen (· ∈ e :: borders e chunks) o' text m :=
      fun ho' hseen => hseen.congr fun n hn =>
        (List.mem_cons.trans (or_iff_right (Nat.ne_of_gt (Nat.lt_of_le_of_lt ho' hn)))).symm
    rw [encode_cons, List.append_assoc] at h
    rcases List.append_eq_append_iff.mp h with ⟨back, hchar, hback⟩ | ⟨more, rfl, hmore⟩
    · by_cases hnil : back = []
      · -- the chunk ends with the character
        rw [hnil, List.append_nil] at hchar
        rw [hnil, List.nil_append] at hback
        rw [← hchar] at he ⊢
        rw [hsize] at he
        obtain ⟨m, junk, hm, hseen⟩ := hrest e [] text (by simp) hback
        have hlossy := lossy_utf8EncodeChar_append c []
        rw [List.append_nil, lossy_nil] at hlossy
        refine ⟨c :: m, junk, ?_, .whole (huncut (Nat.le_of_eq he.symm)) ?_⟩
        · rw [hlossy, hm]
          rfl
        · rw [← he]
          exact hlater (Nat.le_refl _) hseen
      · by_cases hchunk : chunk = []
        · -- an empty chunk
          subst hchunk
          rw [List.nil_append] at hchar
          rw [List.length_nil, Nat.add_zero] at he
          rw [← hchar] at hback
          obtain ⟨m, junk, hm, hseen⟩ := hrest e [] (c :: text) (by simp)
            (by rw [hback, encode_cons, List.append_assoc]; rfl)
          rw [← he]
          exact ⟨m, junk, hm, hlater (Nat.le_refl _) hseen⟩
        · -- the border cuts the character
          obtain ⟨k, hk, hlossy⟩ := lossy_of_append_eq hchunk hnil hchar.symm
          have hcont : ∀ b ∈ back, isCont b = true := by
            obtain ⟨first, others, hfirst, -, hothers⟩ := utf8EncodeChar_eq_cons c
            obtain ⟨b, chunk, rfl⟩ := List.exists_cons_of_ne_nil hchunk
            rw [hfirst, List.cons_append, List.cons_eq_cons] at hchar
            exact fun x hx => hothers x (hchar.2 ▸ List.mem_append_right _ hx)
          obtain ⟨m, junk, hm, hseen⟩ := hrest e back text hcont hback
          have hlen : chunk.length + back.length = c.utf8Size := by
            rw [← hsize, hchar, List.length_append]
          have hpos := List.length_pos_of_ne_nil hchunk
          have hpos' := List.length_pos_of_ne_nil hnil
          refine ⟨List.replicate (k + back.length) replacement ++ m, junk, ?_,
            .split (List.mem_cons_self ..) (by omega) (by omega) (by omega) ?_⟩
          · rw [hlossy, hm, List.replicate_add]
            simp only [List.append_assoc]
          · rw [show o + c.utf8Size = e + back.length by omega]
            exact hlater (Nat.le_add_right ..) hseen
    · -- the chunk goes on after the character
      rw [List.length_append, hsize] at he
      obtain ⟨m, junk, hm, hseen⟩ := @ih (o + c.utf8Size) more hmore.symm (by omega)
      refine ⟨c :: m, junk, ?_, .whole (huncut (by omega)) hseen⟩
      rw [lossy_utf8EncodeChar_append, List.cons_append, hm]
      rfl

theorem readsFrom (trailing : List UInt8) (chunks : List (List UInt8)) :
    ReadsFrom trailing chunks := by
  induction chunks with
  | nil =>
    intro a pending text _ h
    obtain ⟨rfl, htext⟩ := List.append_eq_nil_iff.mp h.symm
    cases text with
    | nil => exact ⟨[], [], rfl, .nil⟩
    | cons c text =>
      have hlen := congrArg List.length (List.append_eq_nil_iff.mp htext).1
      rw [length_encode_cons, List.length_nil] at hlen
      exact absurd hlen (by have := c.utf8Size_pos; omega)
  | cons chunk chunks ih =>
    intro a pending text hpending h
    rw [List.flatten_cons] at h
    rw [List.flatMap_cons]
    rcases List.append_eq_append_iff.mp h with ⟨pending, rfl, hrest⟩ | ⟨more, rfl, hmore⟩
    · -- the chunk is part of the cut encoding
      rw [List.forall_mem_append] at hpending
      obtain ⟨m, junk, hm, hseen⟩ := ih (a + chunk.length) pending text hpending.2 hrest
      have hlossy := lossy_append_of_isCont hpending.1 []
      rw [List.append_nil, lossy_nil, List.append_nil] at hlossy
      refine ⟨m, junk, ?_, ?_⟩
      · rw [hlossy, hm, List.length_append, List.replicate_add, List.append_assoc]
      · rw [List.length_append, ← Nat.add_assoc]
        exact hseen.congr fun n hn => (mem_borders_cons (by omega)).symm
    · obtain ⟨m, junk, hm, hseen⟩ := ReadsFrom.chunk ih (o := a + pending.length) hmore.symm
      refine ⟨m, junk, ?_, ?_⟩
      · rw [lossy_append_of_isCont hpending, List.append_assoc, hm]
      · refine hseen.congr fun n _ => ?_
        rw [borders, borders, List.length_append, Nat.add_assoc]

theorem seen_flatMap_lossy {text : List Char} (h : chunks.flatten = encode text ++ trailing) :
    ∃ m junk, chunks.flatMap lossy = m ++ junk ∧ Seen (· ∈ borders 0 chunks) 0 text m := by
  exact readsFrom trailing chunks 0 [] text (by simp) h

end Reading

end Utf8
