/-
  Inkentry.Harvest.Sessions

  Which sessions of a Claude Code history a harvest sends to the model: those
  with entries of the project, not harvested yet, whose text has no secret.

  An entry is taken for the project's when its directory begins with the
  repository's root as text, so a sibling directory whose name begins with the
  root's is taken too; the pasted parts of an entry come out of a hash map, in
  no particular order; and one line that is not UTF-8 ends the harvest.
  `sessionsLaw_iff` says of which histories the requests are nevertheless those
  of the project's own entries.
-/

import Inkentry.Harvest.LoopRun

namespace Inkentry
namespace Harvest

open TextLines

/-! ## Reading the history -/

/-- A line of the history: a prompt, what was pasted into it, and where it was given. -/
structure ClaudeHistoryEntry where
  display : List Char
  pastedContents : List (List Char)
  timestamp : Int
  project : List Char
  sessionId : List Char
  deriving DecidableEq

/-- The lines of a history file; one that is not UTF-8 has no text. -/
abbrev History := List (Option (List Char))

/-- Whether an entry has a part with text. -/
def ClaudeHistoryEntry.hasText (e : ClaudeHistoryEntry) : Bool :=
  (e.display :: e.pastedContents).any fun part => part ≠ []

/-- The order in which an entry's pasted parts come out of its map: any order, for each entry of
each session. -/
structure PartOrder where
  apply : List Char → Nat → List (List Char) → List (List Char)
  perm : ∀ session i parts, (apply session i parts).Perm parts

/-- The order of the file. -/
def PartOrder.written : PartOrder := ⟨fun _ _ parts => parts, fun _ _ parts => List.Perm.refl parts⟩

/-- An order for the entries after the first. -/
def PartOrder.later (order : PartOrder) : PartOrder :=
  ⟨fun session i parts => order.apply session (i + 1) parts,
    fun session i parts => order.perm session (i + 1) parts⟩

/-- The order of the first entry from one, those of the others from another. -/
def PartOrder.cons (first rest : PartOrder) : PartOrder where
  apply session
    | 0, parts => first.apply session 0 parts
    | i + 1, parts => rest.apply session i parts
  perm session
    | 0, parts => first.perm session 0 parts
    | i + 1, parts => rest.perm session i parts

/-- What a harvest of sessions is given: the JSON parser, the scanner for secrets, the repository's
root, the instant it begins at and the references that are harvested already. -/
structure Scope where
  parse : List Char → Option ClaudeHistoryEntry
  containsSecret : List Char → Bool
  repoRoot : List Char
  sinceMs : Int
  knownRefs : List (List Char)

def CAP : Nat := 16000

namespace Scope

variable (sc : Scope)

/-- Blank lines and lines that do not parse are skipped. -/
def entryOf (line : List Char) : Option ClaudeHistoryEntry :=
  if trim line = [] then none else sc.parse (trim line)

def entries (h : History) : List ClaudeHistoryEntry := h.filterMap fun line => line.bind sc.entryOf

/-- The entries that the harvest takes for the project's. -/
def taken (e : ClaudeHistoryEntry) : Bool :=
  sc.sinceMs ≤ e.timestamp && sc.repoRoot.isPrefixOf e.project

/-- The entries of one session. -/
def sessionEntries (h : History) (session : List Char) : List ClaudeHistoryEntry :=
  (sc.entries h).filter fun e => sc.taken e && e.sessionId = session

/-- The parts of one entry that have text. -/
def partsOf (order : PartOrder) (session : List Char) (i : Nat) (e : ClaudeHistoryEntry) :
    List (List Char) :=
  (e.display :: order.apply session i e.pastedContents).filter fun part => part ≠ []

/-- The parts of a session, joined. -/
def combined (order : PartOrder) (session : List Char) (entries : List ClaudeHistoryEntry) :
    List Char :=
  "\n\n".toList.intercalate (entries.mapIdx (partsOf order session)).flatten

/-- A text that is not sent: it has a secret, or it is blank. -/
def refuses (text : List Char) : Bool := sc.containsSecret text || trim text = []

/-- What a cut keeps of a text. -/
def kept (text : List Char) : List Char := takeBytes text (floorCharBoundary text CAP)

/-- A text as it is sent. -/
def capped (text : List Char) : List Char :=
  if CAP < byteLen text then kept text ++ "\n\n[...truncated]".toList else text

/-- What is sent for a session, if anything is. -/
def sessionText (text : List Char) : Option (List Char) :=
  if sc.refuses text then none else some (capped text)

/-- The sessions that are sent, in one order; the map that they are kept in has none. -/
def newSessions (order : PartOrder) (h : History) : List NewSession :=
  if h.all Option.isSome then
    ((((sc.entries h).filter sc.taken).map (·.sessionId)).dedup.filter fun session =>
      !sc.knownRefs.contains (sessionRef session)).filterMap fun session =>
        (sc.sessionText (combined order session (sc.sessionEntries h session))).map
          (NewSession.mk session)
  else []

/-- The batches that are requested for some order of the sessions. -/
def requests (w : World) (batchSize : Nat) (sessions : List NewSession) : List (List NewSession) :=
  (harvestClaudeCode sc.containsSecret).planned w batchSize sessions

/-! ## The project's own entries -/

/-- The directory is the root or lies below it. -/
def below (project : List Char) : Bool :=
  project = sc.repoRoot
    || (if sc.repoRoot.getLast? = some '/' then sc.repoRoot else sc.repoRoot ++ ['/']).isPrefixOf
      project

/-- The entries of a session that are the project's. -/
def ownEntries (h : History) (session : List Char) : List ClaudeHistoryEntry :=
  (sc.sessionEntries h session).filter fun e => sc.below e.project

/-- An entry of the project in a session whose text has no secret. -/
def relevant (h : History) (e : ClaudeHistoryEntry) : Bool :=
  sc.taken e && sc.below e.project
    && !sc.containsSecret (combined .written e.sessionId (sc.ownEntries h e.sessionId))

/-- The history with nothing but these entries. -/
def restricted (h : History) : History :=
  h.filter fun line => (line.bind sc.entryOf).any (sc.relevant h)

/-- The entries of a session that count: none if the project's text of it has a secret. -/
def countedEntries (h : History) (session : List Char) : List ClaudeHistoryEntry :=
  (sc.ownEntries h session).filter fun _ =>
    !sc.containsSecret (combined .written session (sc.ownEntries h session))

/-- The text of a session. -/
def text (order : PartOrder) (h : History) (session : List Char) : List Char :=
  combined order session (sc.sessionEntries h session)

/-- The text that the session would have without the entries that do not count. -/
def ownText (order : PartOrder) (h : History) (session : List Char) : List Char :=
  combined order session (sc.countedEntries h session)

/-- Two histories lead to the same requests, whatever order pasted parts come in and up to the
order of the sessions. -/
def SameRequests (w : World) (batchSize : Nat) (h h' : History) : Prop :=
  ∀ order order' sessions, sessions.Perm (sc.newSessions order h) →
    ∃ sessions', sessions'.Perm (sc.newSessions order' h')
      ∧ sc.requests w batchSize sessions = sc.requests w batchSize sessions'

/-- A session that the entries of other directories do not change: it is never sent; or they have
no text in it and its pasted parts may come in any order; or the cut leaves the same of each. -/
def Undisturbed (h : History) (session : List Char) : Prop :=
  ((∀ order, sc.refuses (sc.text order h session) = true)
      ∧ ∀ order, sc.refuses (sc.ownText order h session) = true)
    ∨ (∀ order, sc.refuses (sc.text order h session) = false)
      ∧ (∀ order, sc.refuses (sc.ownText order h session) = false)
      ∧ (((∀ e ∈ sc.sessionEntries h session, e.hasText = true → sc.below e.project = true)
            ∧ ∀ order order', sc.ownText order h session = sc.ownText order' h session)
          ∨ ∀ order order', CAP < byteLen (sc.text order h session)
            ∧ CAP < byteLen (sc.ownText order' h session)
            ∧ kept (sc.text order h session) = kept (sc.ownText order' h session))

/-- The sessions that are not harvested yet are undisturbed, or, where a line is not UTF-8, have
nothing of the project's to send. -/
structure StaysInside (h : History) : Prop where
  readable : h.all Option.isSome = true →
    ∀ session, sessionRef session ∉ sc.knownRefs → sc.Undisturbed h session
  unreadable : h.all Option.isSome = false → ∀ session, sessionRef session ∉ sc.knownRefs →
    ∀ order, sc.refuses (sc.ownText order h session) = true

/-- The requests of a history are those of the project's own entries, and those of any other such
history that has the same ones. -/
structure SessionsLaw (w : World) (batchSize : Nat) (h : History) : Prop where
  own : sc.SameRequests w batchSize h (sc.restricted h)
  agree : ∀ h', sc.SameRequests w batchSize h' (sc.restricted h') →
    sc.entries (sc.restricted h) = sc.entries (sc.restricted h') → sc.SameRequests w batchSize h h'

/-! ## The text of a session -/

variable {sc : Scope} {h h' : History} {session : List Char}
variable {parts : List (List Char)}

/-- What the parts of an entry take, each with the blank line after it. -/
def weight (parts : List (List Char)) : Nat := (parts.map fun part => part.length + 2).sum

@[simp] theorem weight_nil : weight [] = 0 := rfl

@[simp] theorem weight_cons (part : List Char) (parts : List (List Char)) :
    weight (part :: parts) = part.length + 2 + weight parts := by
  simp [weight]

theorem weight_append (parts parts' : List (List Char)) :
    weight (parts ++ parts') = weight parts + weight parts' := by
  simp [weight]

theorem weight_eq_zero_iff : weight parts = 0 ↔ parts = [] := by
  cases parts with
  | nil => simp
  | cons part parts => simp

theorem length_join (hne : parts ≠ []) :
    ("\n\n".toList.intercalate parts).length + 2 = weight parts := by
  induction parts with
  | nil => exact absurd rfl hne
  | cons part parts ih =>
    cases parts with
    | nil => simp [List.intercalate]
    | cons part' parts =>
      have hrest := ih (by simp)
      have hjoin : "\n\n".toList.intercalate (part :: part' :: parts)
          = part ++ "\n\n".toList ++ "\n\n".toList.intercalate (part' :: parts) := by
        simp [List.intercalate]
      rw [hjoin, weight_cons, ← hrest, List.length_append, List.length_append,
        show "\n\n".toList.length = 2 from rfl]
      omega

/-- The parts of an entry that have text, as they are written. -/
def writtenParts (e : ClaudeHistoryEntry) : List (List Char) :=
  (e.display :: e.pastedContents).filter fun part => part ≠ []

theorem partsOf_perm (order : PartOrder) (session : List Char) (i : Nat) (e : ClaudeHistoryEntry) :
    (partsOf order session i e).Perm (writtenParts e) :=
  ((order.perm session i e.pastedContents).cons e.display).filter _

theorem weight_partsOf (order : PartOrder) (session : List Char) (i : Nat)
    (e : ClaudeHistoryEntry) : weight (partsOf order session i e) = weight (writtenParts e) :=
  ((partsOf_perm order session i e).map _).sum_nat

theorem hasText_eq_false_iff {e : ClaudeHistoryEntry} :
    e.hasText = false ↔ weight (writtenParts e) = 0 := by
  rw [weight_eq_zero_iff, writtenParts, List.filter_eq_nil_iff, ClaudeHistoryEntry.hasText,
    List.any_eq_false]

theorem weight_flatten_mapIdx {read : Nat → ClaudeHistoryEntry → List (List Char)}
    (hread : ∀ i e, weight (read i e) = weight (writtenParts e))
    (entries : List ClaudeHistoryEntry) :
    weight (entries.mapIdx read).flatten = (entries.map fun e => weight (writtenParts e)).sum := by
  induction entries generalizing read with
  | nil => rfl
  | cons e entries ih =>
    rw [List.mapIdx_cons, List.flatten_cons, weight_append, hread, List.map_cons, List.sum_cons,
      ih fun i e => hread (i + 1) e]

theorem sum_map_filter_add (p : ClaudeHistoryEntry → Bool) (f : ClaudeHistoryEntry → Nat)
    (entries : List ClaudeHistoryEntry) :
    ((entries.filter p).map f).sum + ((entries.filter fun e => !p e).map f).sum
      = (entries.map f).sum := by
  induction entries with
  | nil => rfl
  | cons e entries ih =>
    cases hp : p e <;> simp [hp] <;> omega

/-- Entries without text can be left out, with the orders of the others kept. -/
theorem exists_order_filter {p : ClaudeHistoryEntry → Bool} (session : List Char)
    {entries : List ClaudeHistoryEntry} (hsilent : ∀ e ∈ entries, e.hasText = true → p e = true)
    (order : PartOrder) :
    ∃ order', (entries.mapIdx (partsOf order session)).flatten
      = ((entries.filter p).mapIdx (partsOf order' session)).flatten := by
  induction entries generalizing order with
  | nil => exact ⟨order, rfl⟩
  | cons e entries ih =>
    obtain ⟨rest, hrest⟩ := ih (fun e he => hsilent e (List.mem_cons_of_mem _ he)) order.later
    have htail : (entries.mapIdx fun i => partsOf order session (i + 1)).flatten
        = ((entries.filter p).mapIdx (partsOf rest session)).flatten := hrest
    by_cases hp : p e = true
    · refine ⟨order.cons rest, ?_⟩
      rw [List.filter_cons_of_pos hp, List.mapIdx_cons, List.mapIdx_cons, List.flatten_cons,
        List.flatten_cons, htail]
      rfl
    · have hnone : partsOf order session 0 e = [] := by
        rw [← weight_eq_zero_iff, weight_partsOf, ← hasText_eq_false_iff, ← Bool.not_eq_true]
        exact fun htext => hp (hsilent e List.mem_cons_self htext)
      refine ⟨rest, ?_⟩
      rw [List.filter_cons_of_neg hp, List.mapIdx_cons, List.flatten_cons, htail, hnone,
        List.nil_append]

/-! ## What the cut leaves -/

theorem takeBytes_floorCharBoundary (s : List Char) (k : Nat) :
    takeBytes s (floorCharBoundary s k) = takeBytes s k := by
  rw [floorCharBoundary]
  induction s generalizing k with
  | nil => rfl
  | cons c s ih =>
    rw [takeBytes.eq_2 k c s]
    split
    case isTrue hle =>
      rw [takeBytes, byteLen, List.map_cons, List.sum_cons, if_pos (Nat.le_add_right _ _),
        Nat.add_sub_cancel_left]
      exact congrArg (c :: ·) (ih (k - c.utf8Size))
    case isFalse =>
      have hpos := c.utf8Size_pos
      rw [takeBytes, if_neg (by simp only [byteLen, List.map_nil, List.sum_nil]; omega)]

theorem lt_byteLen_takeBytes {s : List Char} {k : Nat} (h : k < byteLen s) :
    k < byteLen (takeBytes s k) + 4 := by
  induction s generalizing k with
  | nil => exact absurd h (Nat.not_lt_zero k)
  | cons c s ih =>
    have hsize := c.utf8Size_le_four
    rw [takeBytes]
    split
    case isTrue hle =>
      rw [byteLen, List.map_cons, List.sum_cons] at h ⊢
      have hrest := ih (k := k - c.utf8Size) (by rw [byteLen]; omega)
      rw [byteLen] at hrest
      omega
    case isFalse => omega

theorem byteLen_append (s s' : List Char) : byteLen (s ++ s') = byteLen s + byteLen s' := by
  simp [byteLen]

/-- A text that was cut is still longer than one that was not. -/
theorem lt_byteLen_capped {t : List Char} (h : CAP < byteLen t) : CAP < byteLen (capped t) := by
  have hkept := lt_byteLen_takeBytes h
  rw [capped, if_pos h, kept, takeBytes_floorCharBoundary, byteLen_append,
    show byteLen "\n\n[...truncated]".toList = 16 by decide]
  omega

/-- Two texts are sent alike when they are the same, or when both are cut to the same. -/
theorem capped_eq_iff {t t' : List Char} :
    capped t = capped t' ↔ t = t' ∨ CAP < byteLen t ∧ CAP < byteLen t' ∧ kept t = kept t' := by
  by_cases h : CAP < byteLen t
  · by_cases h' : CAP < byteLen t'
    · rw [capped, if_pos h, capped, if_pos h', List.append_left_inj]
      constructor
      · exact fun heq => .inr ⟨h, h', heq⟩
      · rintro (rfl | ⟨-, -, heq⟩)
        · rfl
        · exact heq
    · constructor
      · intro heq
        have hlong := lt_byteLen_capped h
        rw [heq, capped, if_neg h'] at hlong
        exact absurd hlong h'
      · rintro (rfl | ⟨-, hlong, -⟩)
        · rfl
        · exact absurd hlong h'
  · constructor
    · intro heq
      by_cases h' : CAP < byteLen t'
      · have hlong := lt_byteLen_capped h'
        rw [← heq, capped, if_neg h] at hlong
        exact absurd hlong h
      · rw [capped, if_neg h, capped, if_neg h'] at heq
        exact .inl heq
    · rintro (rfl | ⟨hlong, -, -⟩)
      · rfl
      · exact absurd hlong h

/-- What is sent for two texts is the same when both are refused, or neither is and the cut leaves
the same. -/
theorem sessionText_eq_iff {t t' : List Char} :
    sc.sessionText t = sc.sessionText t'
      ↔ (sc.refuses t = true ∧ sc.refuses t' = true)
        ∨ sc.refuses t = false ∧ sc.refuses t' = false
          ∧ (t = t' ∨ CAP < byteLen t ∧ CAP < byteLen t' ∧ kept t = kept t') := by
  rw [sessionText, sessionText, ← capped_eq_iff]
  cases sc.refuses t <;> cases sc.refuses t' <;> simp

/-! ## Undisturbed sessions -/

variable {order : PartOrder}

theorem refuses_nil : sc.refuses [] = true := by
  rw [refuses, show trim [] = [] from rfl]
  exact Bool.or_true _

theorem flatten_ne_nil_of_refuses {entries : List ClaudeHistoryEntry}
    (h : sc.refuses (combined order session entries) = false) :
    (entries.mapIdx (partsOf order session)).flatten ≠ [] := by
  intro hnil
  have hempty : combined order session entries = [] := by
    rw [combined, hnil]
    rfl
  rw [hempty, refuses_nil] at h
  exact absurd h (by decide)

theorem length_combined {entries : List ClaudeHistoryEntry}
    (h : sc.refuses (combined order session entries) = false) :
    (combined order session entries).length + 2
      = (entries.map fun e => weight (writtenParts e)).sum := by
  rw [combined, length_join (flatten_ne_nil_of_refuses h),
    weight_flatten_mapIdx (weight_partsOf order session)]

theorem countedEntries_of_refuses (h : sc.refuses (sc.ownText order h' session) = false) :
    sc.countedEntries h' session = sc.ownEntries h' session := by
  have hne : sc.countedEntries h' session ≠ [] := by
    intro hnil
    refine flatten_ne_nil_of_refuses h ?_
    rw [hnil]
    rfl
  obtain ⟨e, he⟩ := List.exists_mem_of_ne_nil _ hne
  exact List.filter_eq_self.mpr fun _ _ => (List.mem_filter.mp he).2

/-- Texts that are the same leave no text to the entries of other directories. -/
theorem below_of_text_eq {order order' : PartOrder}
    (htext : sc.refuses (sc.text order h session) = false)
    (hown : sc.refuses (sc.ownText order' h session) = false)
    (heq : sc.text order h session = sc.ownText order' h session) :
    ∀ e ∈ sc.sessionEntries h session, e.hasText = true → sc.below e.project = true := by
  intro e he hhas
  by_contra hout
  have hcounted := countedEntries_of_refuses hown
  have hlength := length_combined htext
  rw [show combined order session (sc.sessionEntries h session) = sc.text order h session from rfl,
    heq, ownText] at hlength
  have hlengthOwn := length_combined hown
  rw [hlength, hcounted, ownEntries, ← sum_map_filter_add fun e => sc.below e.project]
    at hlengthOwn
  have hzero : ∀ w ∈ ((sc.sessionEntries h session).filter fun e => !sc.below e.project).map
      fun e => weight (writtenParts e), w = 0 := by
    rw [← List.sum_eq_zero_iff_forall_eq_nat]
    omega
  have hnone := hzero _ (List.mem_map_of_mem (List.mem_filter.mpr ⟨he, by simpa using hout⟩))
  rw [← hasText_eq_false_iff, hhas] at hnone
  exact absurd hnone (by decide)

/-- Where entries of other directories have no text, the text is one of the project's own. -/
theorem exists_text_eq_ownText {order₀ : PartOrder}
    (hown : sc.refuses (sc.ownText order₀ h session) = false)
    (hsilent : ∀ e ∈ sc.sessionEntries h session, e.hasText = true → sc.below e.project = true)
    (order : PartOrder) : ∃ order', sc.text order h session = sc.ownText order' h session := by
  obtain ⟨order', horder⟩ := exists_order_filter session hsilent order
  refine ⟨order', ?_⟩
  rw [text, ownText, countedEntries_of_refuses hown, combined, combined, horder]
  rfl

/-- A session is undisturbed just when what is sent for it is what its own entries come to. -/
theorem undisturbed_iff :
    sc.Undisturbed h session ↔ ∀ order order', sc.sessionText (sc.text order h session)
      = sc.sessionText (sc.ownText order' h session) := by
  simp only [sessionText_eq_iff]
  constructor
  · rintro (⟨htext, hown⟩ | ⟨htext, hown, hsame⟩) order order'
    · exact .inl ⟨htext order, hown order'⟩
    · refine .inr ⟨htext order, hown order', ?_⟩
      obtain ⟨hsilent, horder⟩ | hcut := hsame
      · obtain ⟨order₁, heq⟩ := exists_text_eq_ownText (hown order') hsilent order
        exact .inl (heq.trans (horder order₁ order'))
      · exact .inr (hcut order order')
  · intro hsame
    cases hwritten : sc.refuses (sc.text .written h session) with
    | true =>
      -- every text is refused when one is
      have hown : ∀ order, sc.refuses (sc.ownText order h session) = true := fun order => by
        rcases hsame .written order with ⟨-, hown⟩ | ⟨hnot, -⟩
        · exact hown
        · exact absurd (hwritten.symm.trans hnot) (by decide)
      refine .inl ⟨fun order => ?_, hown⟩
      rcases hsame order .written with ⟨htext, -⟩ | ⟨-, hnot, -⟩
      · exact htext
      · exact absurd ((hown .written).symm.trans hnot) (by decide)
    | false =>
      have hown : ∀ order, sc.refuses (sc.ownText order h session) = false := fun order => by
        rcases hsame .written order with ⟨hnot, -⟩ | ⟨-, hown, -⟩
        · exact absurd (hwritten.symm.trans hnot) (by decide)
        · exact hown
      have htext : ∀ order, sc.refuses (sc.text order h session) = false := fun order => by
        rcases hsame order .written with ⟨-, hnot⟩ | ⟨htext, -⟩
        · exact absurd ((hown .written).symm.trans hnot) (by decide)
        · exact htext
      have hsent : ∀ order order', sc.text order h session = sc.ownText order' h session
          ∨ CAP < byteLen (sc.text order h session) ∧ CAP < byteLen (sc.ownText order' h session)
            ∧ kept (sc.text order h session) = kept (sc.ownText order' h session) :=
        fun order order' => by
          rcases hsame order order' with ⟨hnot, -⟩ | ⟨-, -, hsent⟩
          · exact absurd (hnot.symm.trans (htext order)) (by decide)
          · exact hsent
      refine .inr ⟨htext, hown, ?_⟩
      by_cases hlong : ∀ order, CAP < byteLen (sc.text order h session)
      · refine .inr fun order order' => ?_
        rcases hsent order order' with heq | hcut
        · exact ⟨hlong order, heq ▸ hlong order, congrArg kept heq⟩
        · exact hcut
      · -- one order whose text is not cut: every order of the project's own entries gives it
        obtain ⟨order, hshort⟩ := not_forall.mp hlong
        have heq : ∀ order', sc.text order h session = sc.ownText order' h session :=
          fun order' => (hsent order order').resolve_right fun hcut => hshort hcut.1
        refine .inl ⟨below_of_text_eq (htext order) (hown order) (heq order), fun o o' => ?_⟩
        exact (heq o).symm.trans (heq o')

/-! ## The sessions of two histories -/

theorem filterMap_filter_any {α β : Type} (f : α → Option β) (p : β → Bool) (l : List α) :
    (l.filter fun a => (f a).any p).filterMap f = (l.filterMap f).filter p := by
  induction l with
  | nil => rfl
  | cons a l ih =>
    cases hf : f a with
    | none => simp [hf, ih]
    | some b => cases hp : p b <;> simp [hf, hp, ih]

theorem entries_restricted :
    sc.entries (sc.restricted h) = (sc.entries h).filter (sc.relevant h) :=
  filterMap_filter_any _ _ h

theorem all_isSome_restricted : (sc.restricted h).all Option.isSome = true := by
  rw [List.all_eq_true]
  intro line hline
  cases line with
  | none => exact absurd (List.mem_filter.mp hline).2 (by simp)
  | some _ => rfl

theorem sessionEntries_restricted :
    sc.sessionEntries (sc.restricted h) session = sc.countedEntries h session := by
  rw [sessionEntries, entries_restricted, List.filter_filter, countedEntries, ownEntries,
    sessionEntries, List.filter_filter, List.filter_filter]
  refine List.filter_congr fun e _ => ?_
  by_cases hsession : e.sessionId = session
  · subst hsession
    simp only [relevant, ownEntries, sessionEntries, decide_true, Bool.and_true]
    cases sc.taken e <;> cases sc.below e.project <;> simp
  · simp [hsession]

theorem text_restricted (order : PartOrder) :
    sc.text order (sc.restricted h) session = sc.ownText order h session := by
  rw [text, sessionEntries_restricted]
  rfl

/-- The sessions that are sent for a history whose lines all have text. -/
theorem mem_newSessions (hread : h.all Option.isSome = true) {s : NewSession} :
    s ∈ sc.newSessions order h ↔ sessionRef s.sessionId ∉ sc.knownRefs
      ∧ sc.sessionText (sc.text order h s.sessionId) = some s.combinedText := by
  rw [newSessions, if_pos hread, List.mem_filterMap]
  constructor
  · rintro ⟨session, hsession, hs⟩
    obtain ⟨t, ht, rfl⟩ := Option.map_eq_some_iff.mp hs
    exact ⟨by simpa using (List.mem_filter.mp hsession).2, ht⟩
  · rintro ⟨hknown, htext⟩
    refine ⟨s.sessionId, List.mem_filter.mpr ⟨?_, by simpa using hknown⟩,
      Option.map_eq_some_iff.mpr ⟨_, htext, rfl⟩⟩
    -- a session without entries would have nothing to send
    have hne : sc.sessionEntries h s.sessionId ≠ [] := by
      intro hnil
      rw [sessionText, if_pos] at htext
      · exact absurd htext (by simp)
      · rw [text, hnil]
        exact refuses_nil
    obtain ⟨e, he⟩ := List.exists_mem_of_ne_nil _ hne
    obtain ⟨hmem, hboth⟩ := List.mem_filter.mp he
    rw [Bool.and_eq_true, decide_eq_true_eq] at hboth
    rw [List.mem_dedup, List.mem_map]
    exact ⟨e, List.mem_filter.mpr ⟨hmem, hboth.1⟩, hboth.2⟩

theorem nodup_newSessions (order : PartOrder) (h : History) : (sc.newSessions order h).Nodup := by
  rw [newSessions]
  split
  case isTrue =>
    refine ((List.nodup_dedup _).filter _).filterMap fun session session' s hs hs' => ?_
    obtain ⟨_, -, rfl⟩ := Option.map_eq_some_iff.mp hs
    obtain ⟨_, -, heq⟩ := Option.map_eq_some_iff.mp hs'
    exact (congrArg NewSession.sessionId heq).symm
  case isFalse => exact List.nodup_nil

/-- Two readable histories send the same sessions when they send the same for each. -/
theorem perm_newSessions_iff {order order' : PartOrder} (hread : h.all Option.isSome = true)
    (hread' : h'.all Option.isSome = true) :
    (sc.newSessions order h).Perm (sc.newSessions order' h')
      ↔ ∀ session, sessionRef session ∉ sc.knownRefs →
        sc.sessionText (sc.text order h session) = sc.sessionText (sc.text order' h' session) := by
  rw [List.perm_ext_iff_of_nodup (nodup_newSessions order h) (nodup_newSessions order' h')]
  constructor
  · intro hmem session hknown
    refine Option.ext fun t => ?_
    have hboth := hmem ⟨session, t⟩
    rw [mem_newSessions hread, mem_newSessions hread'] at hboth
    exact ⟨fun ht => (hboth.mp ⟨hknown, ht⟩).2, fun ht => (hboth.mpr ⟨hknown, ht⟩).2⟩
  · intro htext s
    rw [mem_newSessions hread, mem_newSessions hread']
    refine and_congr_right fun hknown => ?_
    rw [htext s.sessionId hknown]

/-- A history with an unreadable line is one that nothing is sent for. -/
theorem newSessions_of_unreadable (hread : h.all Option.isSome = false) :
    sc.newSessions order h = [] := by
  rw [newSessions, hread]
  rfl

theorem sameRequests_iff {w : World} {batchSize : Nat} :
    sc.SameRequests w batchSize h h'
      ↔ ∀ order order', (sc.newSessions order h).Perm (sc.newSessions order' h') := by
  constructor
  · intro hsame order order'
    obtain ⟨sessions', hperm, hrequests⟩ := hsame order order' _ (List.Perm.refl _)
    have hflat := congrArg List.flatten hrequests
    rw [requests, requests, Source.flatten_planned, Source.flatten_planned] at hflat
    exact hflat ▸ hperm
  · intro hperm order order' sessions hsessions
    exact ⟨sessions, hsessions.trans (hperm order order'), rfl⟩

/-- The requests of a history are those of its own entries just when it stays inside. -/
theorem sameRequests_restricted_iff {w : World} {batchSize : Nat} :
    sc.SameRequests w batchSize h (sc.restricted h) ↔ sc.StaysInside h := by
  rw [sameRequests_iff]
  cases hread : h.all Option.isSome with
  | true =>
    simp only [perm_newSessions_iff hread all_isSome_restricted, text_restricted]
    constructor
    · intro hsame
      refine ⟨fun _ session hknown => undisturbed_iff.mpr fun order order' =>
        hsame order order' session hknown, fun hnot => ?_⟩
      exact absurd (hread.symm.trans hnot) (by decide)
    · exact fun hinside order order' session hknown =>
        undisturbed_iff.mp (hinside.readable hread session hknown) order order'
  | false =>
    -- one line without text, of any project, and nothing is sent
    simp only [newSessions_of_unreadable hread, List.nil_perm]
    constructor
    · intro hnone
      refine ⟨fun hnot => absurd (hread.symm.trans hnot) (by decide),
        fun _ session hknown order => ?_⟩
      by_contra hsent
      have hmem : (⟨session, capped (sc.ownText order h session)⟩ : NewSession)
          ∈ sc.newSessions order (sc.restricted h) := by
        rw [mem_newSessions all_isSome_restricted, text_restricted, sessionText, if_neg hsent]
        exact ⟨hknown, rfl⟩
      rw [hnone order order] at hmem
      exact absurd hmem List.not_mem_nil
    · intro hinside order order'
      rw [List.eq_nil_iff_forall_not_mem]
      intro s hs
      rw [mem_newSessions all_isSome_restricted, text_restricted] at hs
      have hrefused := hinside.unreadable hread s.sessionId hs.1 order'
      rw [sessionText, if_pos hrefused] at hs
      exact absurd hs.2 (by simp)

theorem newSessions_congr (hread : h.all Option.isSome = true)
    (hread' : h'.all Option.isSome = true) (heq : sc.entries h = sc.entries h') :
    sc.newSessions order h = sc.newSessions order h' := by
  simp only [newSessions, sessionEntries, hread, hread', heq]

/-- The harvest of a history keeps to the project's entries just when the history stays inside. -/
theorem sessionsLaw_iff (sc : Scope) (w : World) (batchSize : Nat) (h : History) :
    sc.SessionsLaw w batchSize h ↔ sc.StaysInside h := by
  refine ⟨fun hlaw => sameRequests_restricted_iff.mp hlaw.own, fun hinside => ?_⟩
  have hown := (@sameRequests_restricted_iff sc h w batchSize).mpr hinside
  refine ⟨hown, fun h' hown' heq => sameRequests_iff.mpr fun order order' => ?_⟩
  have hfirst := sameRequests_iff.mp hown order order
  have hsecond := sameRequests_iff.mp hown' order' order
  rw [newSessions_congr all_isSome_restricted all_isSome_restricted heq] at hfirst
  exact hfirst.trans hsecond.symm

/-! ### A sibling directory -/

/-- A prompt given in `/a/my-extra`, as a line of the history. -/
def siblingLine : List Char :=
  ("\x7b\"display\":\"Keep the key\",\"timestamp\":0,\"project\":\"/a/my-extra\"," ++
    "\"sessionId\":\"s1\"\x7d").toList

/-- The project in `/a/my`, with nothing harvested and nothing secret. -/
def siblingScope : Scope where
  parse line :=
    if line = siblingLine then
      some ⟨"Keep the key".toList, [], 0, "/a/my-extra".toList, "s1".toList⟩
    else none
  containsSecret _ := false
  repoRoot := "/a/my".toList
  sinceMs := 0
  knownRefs := []

def siblingHistory : History := [some siblingLine]

/-- The prompt that was given in the sibling directory is sent. -/
theorem not_sessionsLaw_of_sibling :
    ¬ siblingScope.SessionsLaw smallContext 10 siblingHistory := by
  intro hlaw
  have hinside := sameRequests_restricted_iff.mp hlaw.own
  have hsame := undisturbed_iff.mp (hinside.readable rfl "s1".toList List.not_mem_nil) .written
    .written
  revert hsame
  decide +kernel

end Scope

end Harvest
end Inkentry
