/-
  Inkentry.Harvest.StripAnsi

  Escape sequences and control characters are taken out of a model's answer
  before it is parsed or shown.

  Every text is a row of plain characters, control characters and complete
  escape sequences, perhaps with a sequence it ends inside of.
  `stripAnsi_law` says that exactly the plain characters are left.
-/

import Inkentry.Harvest.Loop

namespace Inkentry
namespace Harvest
namespace Ansi

/-! ## The grammar -/

/-- A control character other than newline, carriage return and tab. -/
def isControl (c : Char) : Bool :=
  !(c = '\n' || c = '\r' || c = '\t') && (c.toNat < 0x20 || c = '\x7f')

/-- What ends a CSI sequence. -/
def isFinal (c : Char) : Bool := 0x40 ≤ c.toNat && c.toNat ≤ 0x7e

/-- Inside a CSI sequence. -/
def IsParams (params : List Char) : Prop := ∀ c ∈ params, isFinal c = false

/-- Inside an OSC sequence. -/
def IsTitle (title : List Char) : Prop := ∀ c ∈ title, c ≠ '\x07' ∧ c ≠ '\x1b'

inductive Piece where
  | plain (c : Char) (hc : isControl c = false)
  | control (c : Char) (hc : isControl c = true) (hesc : c ≠ '\x1b')
  | csi (params : List Char) (hparams : IsParams params) (c : Char) (hc : isFinal c = true)
  | oscBel (title : List Char) (htitle : IsTitle title)
  /-- What is behind the second ESC is not looked at. -/
  | oscEsc (title : List Char) (htitle : IsTitle title) (c : Char)
  | twoChar (c : Char) (hc : c ≠ '[' ∧ c ≠ ']')

def Piece.text : Piece → List Char
  | .plain c _ | .control c _ _ => [c]
  | .csi params _ c _ => '\x1b' :: '[' :: (params ++ [c])
  | .oscBel title _ => '\x1b' :: ']' :: (title ++ ['\x07'])
  | .oscEsc title _ c => '\x1b' :: ']' :: (title ++ ['\x1b', c])
  | .twoChar c _ => ['\x1b', c]

def Piece.shown : Piece → List Char
  | .plain c _ => [c]
  | _ => []

/-- A sequence that the text ends inside of, or none. -/
inductive Unfinished : List Char → Prop
  | none : Unfinished []
  | escape : Unfinished ['\x1b']
  | csi {params : List Char} (hparams : IsParams params) : Unfinished ('\x1b' :: '[' :: params)
  | osc {title : List Char} (htitle : IsTitle title) : Unfinished ('\x1b' :: ']' :: title)
  | oscEnd {title : List Char} (htitle : IsTitle title) :
      Unfinished ('\x1b' :: ']' :: (title ++ ['\x1b']))

/-! ## What is left -/

variable {c : Char} {s rest tail : List Char}

theorem stripAnsiFrom_text_cons (hesc : c ≠ '\x1b') (rest : List Char) :
    stripAnsiFrom .text (c :: rest)
      = if isControl c then stripAnsiFrom .text rest else c :: stripAnsiFrom .text rest := by
  rw [stripAnsiFrom, if_neg hesc]
  by_cases hkept : c = '\n' ∨ c = '\r' ∨ c = '\t'
  · rw [if_pos hkept, if_neg (by rcases hkept with rfl | rfl | rfl <;> decide)]
  · rw [if_neg hkept]
    simp only [not_or] at hkept
    simp [isControl, hkept]

theorem stripAnsiFrom_csi {params : List Char} (h : IsParams params) (rest : List Char) :
    stripAnsiFrom .csi (params ++ rest) = stripAnsiFrom .csi rest := by
  induction params with
  | nil => rfl
  | cons c params ih =>
    rw [List.cons_append, stripAnsiFrom, if_neg (by simpa [isFinal] using h c List.mem_cons_self)]
    exact ih fun d hd => h d (.tail _ hd)

theorem stripAnsiFrom_osc {title : List Char} (h : IsTitle title) (rest : List Char) :
    stripAnsiFrom .osc (title ++ rest) = stripAnsiFrom .osc rest := by
  induction title with
  | nil => rfl
  | cons c title ih =>
    obtain ⟨hbel, hesc⟩ := h c List.mem_cons_self
    rw [List.cons_append, stripAnsiFrom, if_neg hbel, if_neg hesc]
    exact ih fun d hd => h d (.tail _ hd)

theorem stripAnsi_piece (p : Piece) (rest : List Char) :
    stripAnsi (p.text ++ rest) = p.shown ++ stripAnsi rest := by
  cases p with
  | plain c hc =>
    have hesc : c ≠ '\x1b' := fun h => absurd hc (by rw [h]; decide)
    exact (stripAnsiFrom_text_cons hesc rest).trans (if_neg (by simp [hc]))
  | control c hc hesc => exact (stripAnsiFrom_text_cons hesc rest).trans (if_pos hc)
  | csi params hparams c hc =>
    show stripAnsiFrom .csi (params ++ [c] ++ rest) = stripAnsi rest
    rw [List.append_assoc, stripAnsiFrom_csi hparams]
    exact if_pos (by simpa [isFinal] using hc)
  | oscBel title htitle =>
    show stripAnsiFrom .osc (title ++ ['\x07'] ++ rest) = stripAnsi rest
    rw [List.append_assoc, stripAnsiFrom_osc htitle]
    rfl
  | oscEsc title htitle c =>
    show stripAnsiFrom .osc (title ++ ['\x1b', c] ++ rest) = stripAnsi rest
    rw [List.append_assoc, stripAnsiFrom_osc htitle]
    rfl
  | twoChar c hc =>
    show stripAnsiFrom .escape (c :: rest) = stripAnsi rest
    rw [stripAnsiFrom, if_neg hc.1, if_neg hc.2, stripAnsi]

theorem stripAnsi_unfinished (h : Unfinished tail) : stripAnsi tail = [] := by
  cases h with
  | none => rfl
  | escape => rfl
  | @csi params hparams =>
    show stripAnsiFrom .csi params = []
    rw [← List.append_nil params, stripAnsiFrom_csi hparams, stripAnsiFrom]
  | @osc title htitle =>
    show stripAnsiFrom .osc title = []
    rw [← List.append_nil title, stripAnsiFrom_osc htitle, stripAnsiFrom]
  | oscEnd htitle => exact stripAnsiFrom_osc htitle ['\x1b']

theorem stripAnsi_pieces (pieces : List Piece) (h : Unfinished tail) :
    stripAnsi (pieces.flatMap Piece.text ++ tail) = pieces.flatMap Piece.shown := by
  induction pieces with
  | nil => exact stripAnsi_unfinished h
  | cons p pieces ih =>
    rw [List.flatMap_cons, List.append_assoc, stripAnsi_piece, ih, List.flatMap_cons]

/-! ## Every text -/

/-- A text is pieces, and perhaps a sequence it ends inside of. -/
def Splits (s : List Char) : Prop :=
  ∃ (pieces : List Piece) (tail : List Char), Unfinished tail ∧ s = pieces.flatMap Piece.text ++ tail

theorem Splits.cons (p : Piece) (h : Splits rest) : Splits (p.text ++ rest) := by
  obtain ⟨pieces, tail, htail, rfl⟩ := h
  exact ⟨p :: pieces, tail, htail, by rw [List.flatMap_cons, List.append_assoc]⟩

theorem Splits.of_unfinished (h : Unfinished s) : Splits s := ⟨[], s, h, rfl⟩

/-- Cut at the first character of a kind, if there is one. -/
theorem cut_at (p : Char → Bool) (l : List Char) :
    (∀ c ∈ l, p c = false) ∨ ∃ front c back, l = front ++ c :: back ∧ p c = true
      ∧ ∀ d ∈ front, p d = false := by
  rcases h : l.find? p with _ | c
  · exact .inl fun c hc => eq_false_of_ne_true (List.find?_eq_none.mp h c hc)
  · obtain ⟨hc, front, back, hl, hfront⟩ := List.find?_eq_some_iff_append.mp h
    exact .inr ⟨front, c, back, hl, hc, fun d hd => by simpa using hfront d hd⟩

theorem splits (s : List Char) : Splits s := by
  -- on the length: a piece is taken off the front, unless the text ends inside of it
  induction hn : s.length using Nat.strong_induction_on generalizing s with
  | _ n ih =>
    subst hn
    match s with
    | [] => exact .of_unfinished .none
    | c :: rest =>
      by_cases hesc : c = '\x1b'
      case neg =>
        have hrest := ih rest.length (Nat.lt_succ_self _) rest rfl
        cases hc : isControl c with
        | false => exact hrest.cons (.plain c hc)
        | true => exact hrest.cons (.control c hc hesc)
      subst hesc
      match rest with
      | [] => exact .of_unfinished .escape
      | d :: rest =>
        by_cases hcsi : d = '['
        · subst hcsi
          rcases cut_at isFinal rest with hparams | ⟨params, e, back, rfl, he, hparams⟩
          · exact .of_unfinished (.csi hparams)
          · have hback := ih back.length (by grind) back rfl
            simpa [Piece.text] using hback.cons (.csi params hparams e he)
        by_cases hosc : d = ']'
        · subst hosc
          have htitle : ∀ {l : List Char}, (∀ c ∈ l, (c = '\x07' || c = '\x1b') = false) →
              IsTitle l := fun h c hc => by simpa using h c hc
          rcases cut_at (fun c => c = '\x07' || c = '\x1b') rest with
            h | ⟨title, e, back, rfl, he, h⟩
          · exact .of_unfinished (.osc (htitle h))
          · rcases (by simpa using he : e = '\x07' ∨ e = '\x1b') with rfl | rfl
            · have hback := ih back.length (by grind) back rfl
              simpa [Piece.text] using hback.cons (.oscBel title (htitle h))
            · match back with
              | [] => exact .of_unfinished (.oscEnd (htitle h))
              | e :: back =>
                have hback := ih back.length (by grind) back rfl
                simpa [Piece.text] using hback.cons (.oscEsc title (htitle h) e)
        · exact (ih rest.length (by grind) rest rfl).cons (.twoChar d ⟨hcsi, hosc⟩)

theorem stripAnsi_of_plain (h : ∀ c ∈ s, isControl c = false) : stripAnsi s = s := by
  induction s with
  | nil => rfl
  | cons c s ih =>
    have hpiece := stripAnsi_piece (.plain c (h c List.mem_cons_self)) s
    exact hpiece.trans (congrArg (c :: ·) (ih fun d hd => h d (.tail _ hd)))

/-- What is left of a text is its plain characters, however it is read as pieces, and it can be
    read so: no control character is left, a text without one is left alone, and nothing more is
    taken out of what is left. -/
theorem stripAnsi_law (s : List Char) :
    Splits s
      ∧ (∀ (pieces : List Piece) tail, Unfinished tail → s = pieces.flatMap Piece.text ++ tail →
        stripAnsi s = pieces.flatMap Piece.shown)
      ∧ (∀ c ∈ stripAnsi s, isControl c = false)
      ∧ (stripAnsi s = s ↔ ∀ c ∈ s, isControl c = false)
      ∧ stripAnsi (stripAnsi s) = stripAnsi s := by
  have hplain : ∀ c ∈ stripAnsi s, isControl c = false := by
    obtain ⟨pieces, tail, htail, rfl⟩ := splits s
    intro c hc
    rw [stripAnsi_pieces pieces htail] at hc
    obtain ⟨p, -, hp⟩ := List.mem_flatMap.mp hc
    cases p with
    | plain d hd => exact List.mem_singleton.mp hp ▸ hd
    | _ => cases hp
  refine ⟨splits s, ?_, hplain, ⟨fun h => h ▸ hplain, stripAnsi_of_plain⟩, stripAnsi_of_plain hplain⟩
  rintro pieces tail htail rfl
  exact stripAnsi_pieces pieces htail

end Ansi
end Harvest
end Inkentry
