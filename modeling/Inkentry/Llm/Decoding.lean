/-
  Inkentry.Llm.Decoding

  What a completion reads of a stream that the network cuts into chunks.

  Framing and JSON syntax are single bytes, so a cut leaves every event where
  it is; a character of a content that a cut falls into is read as replacement
  characters.  So the client returns the tokens, and the server forwards the
  contents, exactly when no chunk ends inside a character of what is read
  (`decodingLaw_iff`).
-/

import Inkentry.Llm.Events

namespace Inkentry
namespace Llm

open EventStream Utf8

/-! ## Contents between single bytes -/

/-- Every character is a single byte. -/
def SingleBytes (text : List Char) : Prop := ∀ c ∈ text, c.utf8Size = 1

instance (text : List Char) : Decidable (SingleBytes text) :=
  List.decidableBAll (fun c : Char => c.utf8Size = 1) text

variable {cut : ℕ → Prop} {o : ℕ}

theorem SingleBytes.append {text text' : List Char} (h : SingleBytes text)
    (h' : SingleBytes text') : SingleBytes (text ++ text') :=
  List.forall_mem_append.mpr ⟨h, h'⟩

theorem SingleBytes.eq_of_seen {text m : List Char} (h : SingleBytes text)
    (hseen : Seen cut o text m) : m = text :=
  hseen.eq_iff.mpr (intact_of_utf8Size h cut o)

theorem jsonEscape_cases (c : Char) :
    (jsonEscape c).toList = [c] ∨ SingleBytes (jsonEscape c).toList := by
  have hdigit : ∀ n < 16, (Nat.digitChar n).utf8Size = 1 := by decide
  unfold jsonEscape
  split
  · exact .inr (by decide)
  split
  · exact .inr (by decide)
  split
  · exact .inr (by decide)
  split
  · exact .inr (by decide)
  split
  · exact .inr (by decide)
  split
  · exact .inr (by decide)
  split
  · exact .inr (by decide)
  split
  case isTrue hctl =>
    refine .inr ?_
    rw [String.toList_append, String.toList_append, String.toList_singleton, String.toList_singleton]
    refine SingleBytes.append (SingleBytes.append (by decide) ?_) ?_
    · exact List.forall_mem_singleton.mpr (hdigit _ (by omega))
    · exact List.forall_mem_singleton.mpr (hdigit _ (by omega))
  case isFalse => exact .inl (String.toList_singleton c)

theorem jsonEscape_replacement : (jsonEscape replacement).toList = [replacement] := by decide

theorem escapeText_cons (c : Char) (text : List Char) :
    escapeText (c :: text) = (jsonEscape c).toList ++ escapeText text := rfl

theorem escapeText_replicate_append (k : ℕ) (text : List Char) :
    escapeText (List.replicate k replacement ++ text)
      = List.replicate k replacement ++ escapeText text := by
  induction k with
  | zero => rfl
  | succ k ih =>
    rw [List.replicate_succ, List.cons_append, escapeText_cons, jsonEscape_replacement, ih]
    rfl

/-- A text that is read through cuts: it grew, by replacement characters. -/
structure Garbled (text text' : List Char) : Prop where
  longer : text.length < text'.length
  mem : replacement ∈ text'

theorem Garbled.append {front front' back back' : List Char}
    (hfront : front' = front ∨ Garbled front front') (hback : back' = back ∨ Garbled back back')
    (h : Garbled front front' ∨ Garbled back back') : Garbled (front ++ back) (front' ++ back') := by
  have hlen : ∀ {text text' : List Char}, text' = text ∨ Garbled text text' →
      text.length ≤ text'.length := by
    rintro text text' (rfl | h)
    · exact Nat.le_refl _
    · exact Nat.le_of_lt h.longer
  have hle := hlen hfront
  have hle' := hlen hback
  rcases h with h | h
  · refine ⟨?_, List.mem_append_left _ h.mem⟩
    have hlt := h.longer
    rw [List.length_append, List.length_append]
    omega
  · refine ⟨?_, List.mem_append_right _ h.mem⟩
    have hlt := h.longer
    rw [List.length_append, List.length_append]
    omega

/-- An escaped content is read as an escaped content, as it is or garbled. -/
theorem exists_escapeText_of_seen {text m : List Char} (h : Seen cut o (escapeText text) m) :
    ∃ text', m = escapeText text' ∧ (text' = text ∨ Garbled text text') := by
  induction text generalizing o m with
  | nil =>
    cases h
    exact ⟨[], rfl, .inl rfl⟩
  | cons c text ih =>
    rw [escapeText_cons] at h
    have hcons : ∀ {text'}, text' = text ∨ Garbled text text' →
        c :: text' = c :: text ∨ Garbled (c :: text) (c :: text') := fun hsame =>
      hsame.imp (congrArg (c :: ·)) fun h => Garbled.append (.inl (Eq.refl [c])) (.inr h) (.inr h)
    rcases jsonEscape_cases c with hself | hsingle
    · rw [hself, List.singleton_append] at h
      cases h with
      | whole _ hrest =>
        obtain ⟨text', rfl, hsame⟩ := ih hrest
        exact ⟨c :: text', by rw [escapeText_cons, hself]; rfl, hcons hsame⟩
      | @split _ _ k _ _ _ _ _ _ hk hrest =>
        obtain ⟨text', rfl, hsame⟩ := ih hrest
        have hfirst : Garbled [c] (List.replicate k replacement) := by
          refine ⟨?_, List.mem_replicate.mpr ⟨by omega, rfl⟩⟩
          rw [List.length_replicate]
          exact hk
        exact ⟨_, (escapeText_replicate_append k text').symm,
          .inr (Garbled.append (.inr hfirst) hsame (.inl hfirst))⟩
    · obtain ⟨front, back, rfl, hfront, hback⟩ := h.append_left
      obtain rfl := hsingle.eq_of_seen hfront
      obtain ⟨text', rfl, hsame⟩ := ih hback
      exact ⟨c :: text', rfl, hcons hsame⟩

/-- How a text with one content in it is read: with another content, which is the same where
    nothing is cut and garbled where something is. -/
theorem exists_content_of_seen {front back text m : List Char} (hfront : SingleBytes front)
    (hback : SingleBytes back) (h : Seen cut o (front ++ (escapeText text ++ back)) m) :
    ∃ text', m = front ++ (escapeText text' ++ back)
      ∧ (Intact cut o (front ++ (escapeText text ++ back)) → text' = text)
      ∧ (¬Intact cut o (front ++ (escapeText text ++ back)) → Garbled text text') := by
  by_cases hintact : Intact cut o (front ++ (escapeText text ++ back))
  · exact ⟨text, h.eq_iff.mpr hintact, fun _ => rfl, fun hnot => absurd hintact hnot⟩
  · obtain ⟨front', rest, rfl, hseen, hrest⟩ := h.append_left
    obtain ⟨middle, back', rfl, hmiddle, hseen'⟩ := hrest.append_left
    obtain rfl := hfront.eq_of_seen hseen
    obtain rfl := hback.eq_of_seen hseen'
    obtain ⟨text', rfl, hsame⟩ := exists_escapeText_of_seen hmiddle
    refine ⟨text', rfl, fun h => absurd h hintact, fun _ => hsame.resolve_left fun heq => ?_⟩
    rw [heq] at h
    exact hintact (h.eq_iff.mp rfl)

theorem lf_not_mem_escapeText (text : List Char) : '\n' ∉ escapeText text := by
  intro hmem
  obtain ⟨c, -, hc⟩ := List.mem_flatMap.mp hmem
  exact lf_not_mem_jsonEscape c hc

theorem lines_of_not_mem {event : List Char} (hne : event ≠ []) (h : '\n' ∉ event) :
    TextLines.lines event = [event] := by
  simp only [TextLines.lines, List.splitOn_eq_singleton h, List.dropLast_singleton, List.map_nil,
    List.getLast?_singleton, if_neg hne, List.nil_append]

theorem dropPrefix?_append (front rest : List Char) : (front ++ rest).dropPrefix? front = some rest :=
  List.dropPrefix?_eq_some_iff.mpr ⟨_, rfl, BEq.rfl⟩

theorem data_ne_nil : DATA ≠ [] := by decide

theorem lf_not_mem_data : '\n' ∉ DATA := by decide

theorem singleBytes_data : SingleBytes DATA := by decide

theorem lines_data {data : List Char} (h : '\n' ∉ data) :
    TextLines.lines (DATA ++ data) = [DATA ++ data] := by
  refine lines_of_not_mem (fun hnil => data_ne_nil (List.append_eq_nil_iff.mp hnil).1) fun hmem => ?_
  exact (List.mem_append.mp hmem).elim lf_not_mem_data h

/-! ## The events of the server -/

theorem lf_not_mem_tokenData (content : List Char) : '\n' ∉ tokenData content := by
  have hopen : '\n' ∉ tokenOpen := by decide
  have hclose : '\n' ∉ tokenClose := by decide
  intro hmem
  rcases List.mem_append.mp hmem with hmem | hmem
  · exact hopen hmem
  · exact (List.mem_append.mp hmem).elim (lf_not_mem_escapeText content) hclose

theorem lf_not_mem_doneData : '\n' ∉ doneData := by decide

theorem SseItem.isEvent (item : SseItem) : IsEvent item.event := by
  cases item with
  | token content =>
    refine isEvent_of_not_mem fun hmem => ?_
    exact (List.mem_append.mp hmem).elim lf_not_mem_data (lf_not_mem_tokenData content)
  | keepAlive => decide

theorem isEvent_done : IsEvent (DATA ++ doneData) := by
  refine isEvent_of_not_mem fun hmem => ?_
  exact (List.mem_append.mp hmem).elim lf_not_mem_data lf_not_mem_doneData

theorem singleBytes_frame_nil : SingleBytes ['\n', '\n'] := by decide

theorem SseItem.exists_of_seen {item : SseItem} {m : List Char} (h : Seen cut o item.event m) :
    ∃ item' : SseItem, m = item'.event
      ∧ (Intact cut o item.event → item'.content = item.content)
      ∧ (¬Intact cut o item.event → Garbled item.content item'.content) := by
  cases item with
  | token content =>
    have hfront : SingleBytes (DATA ++ tokenOpen) := singleBytes_data.append (by decide)
    have hback : SingleBytes tokenClose := by decide
    have htext : (SseItem.token content).event
        = (DATA ++ tokenOpen) ++ (escapeText content ++ tokenClose) := (List.append_assoc ..).symm
    rw [htext] at h ⊢
    obtain ⟨content', rfl, hsame, hlonger⟩ := exists_content_of_seen hfront hback h
    exact ⟨.token content', List.append_assoc .., hsame, hlonger⟩
  | keepAlive =>
    have hsingle : SingleBytes [':'] := by decide
    refine ⟨.keepAlive, hsingle.eq_of_seen h, fun _ => rfl, fun hnot => ?_⟩
    exact absurd (intact_of_utf8Size hsingle cut o) hnot

theorem intact_frame {event : List Char} : Intact cut o (frame event) ↔ Intact cut o event := by
  rw [frame, intact_append]
  exact and_iff_left (intact_of_utf8Size singleBytes_frame_nil _ _)

theorem exists_frame_of_seen {event rest m : List Char} (h : Seen cut o (frame event ++ rest) m) :
    ∃ event' m', m = frame event' ++ m' ∧ Seen cut o event event'
      ∧ Seen cut (o + (encode (frame event)).length) rest m' := by
  obtain ⟨front, m', rfl, hfront, hrest⟩ := h.append_left
  obtain ⟨event', ends, rfl, hevent, hends⟩ := hfront.append_left
  obtain rfl := singleBytes_frame_nil.eq_of_seen hends
  exact ⟨event', m', rfl, hevent, hrest⟩

/-- Events are read as events, with the same contents where nothing is cut and with garbled ones
    where something is. -/
theorem exists_items_of_seen {items : List SseItem} {rest m : List Char}
    (h : Seen cut o ((items.map SseItem.event).flatMap frame ++ rest) m) :
    ∃ (items' : List SseItem) (m' : List Char),
      m = (items'.map SseItem.event).flatMap frame ++ m'
      ∧ Seen cut (o + (encode ((items.map SseItem.event).flatMap frame)).length) rest m'
      ∧ (Intact cut o ((items.map SseItem.event).flatMap frame) → tokensText items' = tokensText items)
      ∧ (¬Intact cut o ((items.map SseItem.event).flatMap frame) →
          Garbled (tokensText items) (tokensText items')) := by
  induction items generalizing o m with
  | nil => exact ⟨[], m, rfl, h, fun _ => rfl, fun hnot => absurd trivial hnot⟩
  | cons item items ih =>
    rw [List.map_cons, List.flatMap_cons, List.append_assoc] at h
    obtain ⟨event', m₁, rfl, hevent, hrest⟩ := exists_frame_of_seen h
    obtain ⟨item', rfl, hsame, hlonger⟩ := SseItem.exists_of_seen hevent
    obtain ⟨items', m', rfl, hseen, hsame', hlonger'⟩ := ih hrest
    refine ⟨item' :: items', m', (List.append_assoc ..).symm, ?_, ?_, ?_⟩
    · rw [List.map_cons, List.flatMap_cons, encode_append, List.length_append, ← Nat.add_assoc]
      exact hseen
    · intro hintact
      rw [List.map_cons, List.flatMap_cons, intact_append, intact_frame] at hintact
      show item'.content ++ tokensText items' = item.content ++ tokensText items
      rw [hsame hintact.1, hsame' hintact.2]
    · intro hnot
      rw [List.map_cons, List.flatMap_cons, intact_append, intact_frame] at hnot
      have hitem : item'.content = item.content ∨ Garbled item.content item'.content :=
        (em (Intact cut o item.event)).imp hsame hlonger
      have hlater := (em (Intact cut (o + (encode (frame item.event)).length)
        ((items.map SseItem.event).flatMap frame))).imp hsame' hlonger'
      -- cut here or later, one of the two garbled parts is longer
      refine Garbled.append hitem hlater ?_
      by_cases hfirst : Intact cut o item.event
      · exact .inr (hlonger' fun hintact => hnot ⟨hfirst, hintact⟩)
      · exact .inl (hlonger hfirst)

/-! ## The client -/

section Client

variable {ε : Type*} {J : Json}
variable {items : List SseItem} {chunks : List (List UInt8)} {trailing : List UInt8}

theorem completeEvent_data {data : List Char} (h : '\n' ∉ data) (output : List Char) :
    completeEvent J output (DATA ++ data) = completeLine J output (DATA ++ data) := by
  rw [completeEvent, lines_data h, List.foldlM_cons]
  cases completeLine J output (DATA ++ data) <;> rfl

theorem kinds_ne : DONE ≠ TOKEN ∧ tokenOpen ≠ [] ∧ doneData ≠ [] := by decide

theorem completeEvent_item (hJ : J.Lawful) (output : List Char) (item : SseItem) :
    completeEvent J output item.event = .ok (output ++ item.content) := by
  cases item with
  | token content =>
    obtain ⟨val, hval, hkind, hcontent⟩ := hJ.token content
    have hne : tokenData content ≠ [] :=
      fun hnil => kinds_ne.2.1 (List.append_eq_nil_iff.mp hnil).1
    show completeEvent J output (DATA ++ tokenData content) = _
    rw [completeEvent_data (lf_not_mem_tokenData content)]
    simp only [completeLine, dropPrefix?_append, if_neg hne, hval, hkind, if_pos, hcontent,
      Option.getD_some, SseItem.content]
  | keepAlive =>
    have hcomment : [':'].dropPrefix? DATA = none := by decide
    have hlines : TextLines.lines [':'] = [[':']] := by decide
    show (TextLines.lines [':']).foldlM (completeLine J) output = .ok (output ++ [])
    rw [hlines, List.append_nil, List.foldlM_cons]
    simp only [completeLine, hcomment]
    rfl

theorem completeEvent_done (hJ : J.Lawful) (output : List Char) :
    completeEvent J output (DATA ++ doneData) = .error (.ok output) := by
  obtain ⟨val, hval, hkind⟩ := hJ.done
  rw [completeEvent_data lf_not_mem_doneData]
  simp only [completeLine, dropPrefix?_append, if_neg kinds_ne.2.2, hval, hkind,
    if_neg kinds_ne.1, if_pos]

theorem completeEvent_items (hJ : J.Lawful) (output : List Char) (items : List SseItem) :
    (items.map SseItem.event).foldlM (completeEvent J) output = .ok (output ++ tokensText items) := by
  induction items generalizing output with
  | nil =>
    rw [tokensText, List.flatMap_nil, List.append_nil]
    rfl
  | cons item items ih =>
    rw [List.map_cons, List.foldlM_cons, completeEvent_item hJ]
    show (items.map SseItem.event).foldlM (completeEvent J) (output ++ item.content) = _
    rw [ih, List.append_assoc]
    rfl

theorem isEvent_items (items : List SseItem) : ∀ e ∈ items.map SseItem.event, IsEvent e := by
  rw [List.forall_mem_map]
  exact fun item _ => item.isEvent

theorem sseText_eq (items : List SseItem) :
    sseText items = (items.map SseItem.event).flatMap frame ++ frame (DATA ++ doneData) := by
  rw [sseText, List.flatMap_append, List.flatMap_singleton]

theorem singleBytes_done : SingleBytes (frame (DATA ++ doneData)) := by decide

theorem intact_sseText :
    Intact cut o (sseText items) ↔ Intact cut o ((items.map SseItem.event).flatMap frame) := by
  rw [sseText_eq, intact_append]
  exact and_iff_left (intact_of_utf8Size singleBytes_done _ _)

/-- The client's result where the whole of the server's stream arrives. -/
theorem exists_llmComplete (hJ : J.Lawful) (later : List (Except ε (List UInt8)))
    (h : chunks.flatten = encode (sseText items) ++ trailing) :
    ∃ items' : List SseItem,
      llmComplete J (chunks.map .ok ++ later) = .ok (tokensText items')
      ∧ (Intact (· ∈ borders 0 chunks) 0 (sseText items) → tokensText items' = tokensText items)
      ∧ (¬Intact (· ∈ borders 0 chunks) 0 (sseText items) →
          Garbled (tokensText items) (tokensText items')) := by
  obtain ⟨m, junk, hread, hseen⟩ := seen_flatMap_lossy h
  rw [intact_sseText]
  rw [sseText_eq] at hseen
  obtain ⟨items', m', rfl, hdone, hsame, hlonger⟩ := exists_items_of_seen hseen
  obtain rfl := singleBytes_done.eq_of_seen hdone
  refine ⟨items', ?_, hsame, hlonger⟩
  have hdrain : drain (completeEvent J) [] ([] ++ chunks.flatMap lossy)
      = .error (.ok (tokensText items')) := by
    rw [hread, List.nil_append, List.append_assoc, drain_events (isEvent_items items'),
      completeEvent_items hJ]
    show drain (completeEvent J) (tokensText items') (frame (DATA ++ doneData) ++ junk) = _
    rw [drain_of_cutEvent (cutEvent_frame isEvent_done junk), completeEvent_done hJ]
    rfl
  rw [llmComplete, readLoop_chunks rfl, hdrain]

/-- The client returns the tokens exactly when no chunk ends inside a character. -/
theorem llmComplete_iff (hJ : J.Lawful) (later : List (Except ε (List UInt8)))
    (h : chunks.flatten = encode (sseText items) ++ trailing) :
    llmComplete J (chunks.map .ok ++ later) = .ok (tokensText items)
      ↔ Intact (· ∈ borders 0 chunks) 0 (sseText items) := by
  obtain ⟨items', hresult, hsame, hlonger⟩ := exists_llmComplete hJ later h
  rw [hresult]
  constructor
  · intro heq
    by_contra hnot
    have hlt := (hlonger hnot).longer
    rw [Except.ok.inj heq] at hlt
    exact Nat.lt_irrefl _ hlt
  · exact fun hintact => congrArg _ (hsame hintact)

end Client

/-! ## The server as the backend's client -/

section Generate

variable {ε : Type*} (readChunk : List Char → Option (List Delta))

/-- The receiver stays until the generation is over. -/
def always (_ : ℕ) : Bool := true

/-- The contents of one line; an empty one is none. -/
def lineContents (line : List Char) : List (List Char) :=
  match line.dropPrefix? DATA with
  | none => []
  | some data =>
    if data = [] then []
    else (((readChunk data).getD []).filterMap Delta.content).filter (· ≠ [])

/-- The content deltas of an event. -/
def contentDeltas (event : List Char) : List (List Char) :=
  (TextLines.lines event).flatMap (lineContents readChunk)

/-- The event ends the backend's stream. -/
def EndsStream (event : List Char) : Prop := DATA ++ STREAM_DONE ∈ TextLines.lines event

/-- An event of the backend before the one that ends its stream. -/
structure Upstream (event : List Char) : Prop where
  isEvent : IsEvent event
  continues : ¬EndsStream event

/-- The text of the backend's stream up to its end. -/
def upstreamText (events : List (List Char)) : List Char :=
  events.flatMap frame ++ frame (DATA ++ STREAM_DONE)

/-- Nothing that is read of the event depends on the characters that a cut can fall into. -/
def Inert (event : List Char) : Prop :=
  ∀ {cut : ℕ → Prop} {o : ℕ} {m : List Char}, Seen cut o event m →
    ∀ s, generateEvent readChunk always s m = generateEvent readChunk always s event

/-- Between these two texts an object carries one content, as a string literal. -/
structure Carries (front back : List Char) : Prop where
  opens : front.head? = some '\x7b'
  front_single : SingleBytes front
  back_single : SingleBytes back
  lf_not_mem : '\n' ∉ front ∧ '\n' ∉ back
  reads (content : List Char) : ∃ deltas, readChunk (front ++ (escapeText content ++ back)) = some deltas
    ∧ deltas.filterMap Delta.content = [content]

/-- An event with one content. -/
def Carried (event : List Char) : Prop :=
  ∃ front back content, Carries readChunk front back
    ∧ event = DATA ++ (front ++ (escapeText content ++ back))

/-- Each event of a text, with the offset it stands at. -/
def AtEach (P : ℕ → List Char → Prop) : ℕ → List (List Char) → Prop
  | _, [] => True
  | o, event :: events => P o event ∧ AtEach P (o + (encode (frame event)).length) events

/-- What an event is read for is not cut. -/
def IntactWhereRead (cut : ℕ → Prop) : ℕ → List (List Char) → Prop :=
  AtEach fun o event => Inert readChunk event ∨ Intact cut o event

variable {readChunk}

theorem AtEach.mono {P Q : ℕ → List Char → Prop} {events : List (List Char)}
    (h : AtEach P o events) (hPQ : ∀ o, ∀ e ∈ events, P o e → Q o e) : AtEach Q o events := by
  induction events generalizing o with
  | nil => trivial
  | cons event events ih =>
    exact ⟨hPQ o event (List.mem_cons_self ..) h.1,
      ih h.2 fun o e he => hPQ o e (List.mem_cons_of_mem _ he)⟩

theorem atEach_true (events : List (List Char)) : AtEach (fun _ _ => True) o events := by
  induction events generalizing o with
  | nil => trivial
  | cons event events ih => exact ⟨trivial, ih⟩

theorem takeDelta_always (s : Forwarding) (delta : Delta) :
    ∃ s', takeDelta always s delta = .ok s'
      ∧ s'.sent = s.sent ++ delta.content.toList.filter (· ≠ []) := by
  unfold takeDelta
  cases delta.content with
  | none => exact ⟨_, rfl, (List.append_nil _).symm⟩
  | some content =>
    by_cases hnil : content = []
    · refine ⟨_, if_pos hnil, ?_⟩
      simp [hnil]
    · refine ⟨_, (if_neg hnil).trans (if_pos rfl), ?_⟩
      simp [hnil]

theorem takeDeltas_always (deltas : List Delta) (s : Forwarding) :
    ∃ s', deltas.foldlM (takeDelta always) s = .ok s'
      ∧ s'.sent = s.sent ++ (deltas.filterMap Delta.content).filter (· ≠ []) := by
  induction deltas generalizing s with
  | nil => exact ⟨s, rfl, (List.append_nil _).symm⟩
  | cons delta deltas ih =>
    obtain ⟨s₁, htake, hsent⟩ := takeDelta_always s delta
    obtain ⟨s₂, hrest, hsent'⟩ := ih s₁
    refine ⟨s₂, by rw [List.foldlM_cons, htake]; exact hrest, ?_⟩
    rw [hsent', hsent, List.append_assoc, ← List.filter_append]
    cases hcontent : delta.content with
    | none => rw [List.filterMap_cons_none hcontent]; rfl
    | some content => rw [List.filterMap_cons_some hcontent]; rfl

theorem generateLine_always {line : List Char} (hline : line ≠ DATA ++ STREAM_DONE)
    (s : Forwarding) : ∃ s', generateLine readChunk always s line = .ok s'
      ∧ s'.sent = s.sent ++ lineContents readChunk line := by
  unfold generateLine lineContents
  cases hdata : line.dropPrefix? DATA with
  | none => exact ⟨s, rfl, (List.append_nil _).symm⟩
  | some data =>
    have hdone : data ≠ STREAM_DONE := by
      rintro rfl
      obtain ⟨pre, rfl, hpre⟩ := List.dropPrefix?_eq_some_iff.mp hdata
      exact hline (congrArg (· ++ STREAM_DONE) (eq_of_beq hpre))
    simp only [if_neg hdone]
    by_cases hnil : data = []
    · exact ⟨s, if_pos hnil, by rw [if_pos hnil, List.append_nil]⟩
    · simp only [if_neg hnil]
      cases readChunk data with
      | none => exact ⟨s, rfl, (List.append_nil _).symm⟩
      | some deltas => exact takeDeltas_always deltas s

/-- Handling the event puts these fragments into the channel. -/
def Adds (readChunk : List Char → Option (List Delta)) (event : List Char)
    (added : List (List Char)) : Prop :=
  ∀ s, ∃ s', generateEvent readChunk always s event = .ok s' ∧ s'.sent = s.sent ++ added

theorem adds_contentDeltas {event : List Char} (h : ¬EndsStream event) :
    Adds readChunk event (contentDeltas readChunk event) := by
  intro s
  unfold generateEvent contentDeltas
  unfold EndsStream at h
  generalize TextLines.lines event = lines at h ⊢
  induction lines generalizing s with
  | nil => exact ⟨s, rfl, (List.append_nil _).symm⟩
  | cons line lines ih =>
    rw [List.mem_cons, not_or] at h
    obtain ⟨s₁, hline, hsent⟩ : ∃ s₁, generateLine readChunk always s line = .ok s₁
        ∧ s₁.sent = s.sent ++ lineContents readChunk line := generateLine_always (Ne.symm h.1) s
    obtain ⟨s₂, hrest, hsent'⟩ := ih s₁ h.2
    refine ⟨s₂, by rw [List.foldlM_cons, hline]; exact hrest, ?_⟩
    rw [hsent', hsent, List.append_assoc, List.flatMap_cons]

namespace Carries

variable {front back : List Char}

theorem lf_not_mem_payload (h : Carries readChunk front back) (content : List Char) :
    '\n' ∉ front ++ (escapeText content ++ back) := by
  intro hmem
  rcases List.mem_append.mp hmem with hmem | hmem
  · exact h.lf_not_mem.1 hmem
  · exact (List.mem_append.mp hmem).elim (lf_not_mem_escapeText content) h.lf_not_mem.2

theorem head?_payload (h : Carries readChunk front back) (rest : List Char) :
    (front ++ rest).head? = some '\x7b' := by
  have hne : front ≠ [] := by
    rintro rfl
    exact absurd h.opens (by simp)
  rw [List.head?_append_of_ne_nil _ hne, h.opens]

theorem not_endsStream (h : Carries readChunk front back) (content : List Char) :
    ¬EndsStream (DATA ++ (front ++ (escapeText content ++ back))) := by
  rw [EndsStream, lines_data (h.lf_not_mem_payload content), List.mem_singleton]
  intro heq
  have hhead := h.head?_payload (escapeText content ++ back)
  rw [← List.append_cancel_left heq] at hhead
  exact absurd hhead (by decide)

theorem contentDeltas_eq (h : Carries readChunk front back) (content : List Char) :
    contentDeltas readChunk (DATA ++ (front ++ (escapeText content ++ back)))
      = [content].filter (· ≠ []) := by
  have hne : front ++ (escapeText content ++ back) ≠ [] := by
    intro hnil
    have hhead := h.head?_payload (escapeText content ++ back)
    rw [hnil] at hhead
    exact absurd hhead (by simp)
  obtain ⟨deltas, hread, hcontents⟩ := h.reads content
  rw [contentDeltas, lines_data (h.lf_not_mem_payload content), List.flatMap_singleton, lineContents,
    dropPrefix?_append]
  simp only [if_neg hne, hread, Option.getD_some, hcontents]

end Carries

theorem length_flatten_filter (content : List Char) :
    ([content].filter (· ≠ [])).flatten.length = content.length := by
  by_cases h : content = [] <;> simp [h]

theorem isEvent_of_seen {event m : List Char} (h : Seen cut o event m) (he : IsEvent event) :
    IsEvent m := by
  have hrep : ∀ (k : ℕ) (text : List Char), cutEvent text = none →
      cutEvent (List.replicate k replacement ++ text) = none := by
    intro k text htext
    induction k with
    | zero => exact htext
    | succ k ih =>
      rw [List.replicate_succ, List.cons_append, cutEvent_eq_none_cons]
      exact ⟨fun hlf => absurd hlf.1 (by decide), ih⟩
  -- what replaces a character is no line feed, so no blank line appears
  have hhead : ∀ {o : ℕ} {text m : List Char}, Seen cut o text m →
      (m ++ ['\n']).head? = some '\n' → (text ++ ['\n']).head? = some '\n' := by
    intro o text m hseen hlf
    cases hseen with
    | nil => rfl
    | whole => exact hlf
    | @split _ _ k _ _ _ _ _ _ hk _ =>
      obtain ⟨j, rfl⟩ := Nat.exists_eq_add_of_le' (Nat.lt_of_lt_of_le Nat.zero_lt_two hk)
      rw [List.replicate_succ, List.cons_append, List.cons_append, List.head?_cons] at hlf
      exact absurd (Option.some.inj hlf) (by decide)
  unfold IsEvent at *
  induction h with
  | nil => exact he
  | whole _ hrest ih =>
    rw [List.cons_append, cutEvent_eq_none_cons] at he ⊢
    exact ⟨fun hlf => he.1 ⟨hlf.1, hhead hrest hlf.2⟩, ih he.2⟩
  | split _ _ _ _ _ ih =>
    rw [List.cons_append, cutEvent_eq_none_cons] at he
    rw [List.append_assoc]
    exact hrep _ _ (ih he.2)

/-- What an event that is read through cuts puts into the channel. -/
theorem exists_adds_of_seen {event event' : List Char} (hevent : Upstream event)
    (hseen : Seen cut o event event')
    (hread : Carried readChunk event ∨ Inert readChunk event ∨ Intact cut o event) :
    ∃ added, Adds readChunk event' added
      ∧ (Inert readChunk event ∨ Intact cut o event → added = contentDeltas readChunk event)
      ∧ (¬(Inert readChunk event ∨ Intact cut o event) →
          (contentDeltas readChunk event).flatten.length < added.flatten.length) := by
  by_cases hkept : Inert readChunk event ∨ Intact cut o event
  · refine ⟨contentDeltas readChunk event, ?_, fun _ => rfl, fun hnot => absurd hkept hnot⟩
    rcases hkept with hinert | hintact
    · intro s
      rw [hinert hseen s]
      exact adds_contentDeltas hevent.continues s
    · rw [hseen.eq_iff.mpr hintact]
      exact adds_contentDeltas hevent.continues
  · obtain ⟨front, back, content, hcarries, rfl⟩ := hread.resolve_right hkept
    have hsingle : SingleBytes (DATA ++ front) := singleBytes_data.append hcarries.front_single
    have htext : ∀ t, DATA ++ (front ++ (escapeText t ++ back))
        = (DATA ++ front) ++ (escapeText t ++ back) := fun t => (List.append_assoc ..).symm
    rw [htext] at hseen
    obtain ⟨content', rfl, -, hlonger⟩ := exists_content_of_seen hsingle hcarries.back_single hseen
    rw [← htext] at *
    refine ⟨contentDeltas readChunk _, adds_contentDeltas (hcarries.not_endsStream content'),
      fun h => absurd h hkept, fun _ => ?_⟩
    rw [hcarries.contentDeltas_eq, hcarries.contentDeltas_eq, length_flatten_filter,
      length_flatten_filter]
    exact (hlonger fun hintact => hkept (.inr hintact)).longer

/-- What a text of events that is read through cuts puts into the channel. -/
theorem exists_adds_of_seen_events {events : List (List Char)} {rest m : List Char}
    (hevents : ∀ e ∈ events, Upstream e)
    (hread : AtEach (fun o e => Carried readChunk e ∨ Inert readChunk e ∨ Intact cut o e) o events)
    (hseen : Seen cut o (events.flatMap frame ++ rest) m) :
    ∃ (events' added : List (List Char)) (m' : List Char), m = events'.flatMap frame ++ m'
      ∧ Seen cut (o + (encode (events.flatMap frame)).length) rest m'
      ∧ (∀ e ∈ events', IsEvent e)
      ∧ (∀ s, ∃ s', events'.foldlM (generateEvent readChunk always) s = .ok s'
          ∧ s'.sent = s.sent ++ added)
      ∧ (IntactWhereRead readChunk cut o events → added = events.flatMap (contentDeltas readChunk))
      ∧ (¬IntactWhereRead readChunk cut o events →
          (events.flatMap (contentDeltas readChunk)).flatten.length < added.flatten.length) := by
  -- what is read of the first event is an event again, and the rest starts behind it
  induction events generalizing o m with
  | nil =>
    exact ⟨[], [], m, rfl, hseen, by simp, fun s => ⟨s, rfl, (List.append_nil _).symm⟩,
      fun _ => rfl, fun hnot => absurd trivial hnot⟩
  | cons event events ih =>
    rw [List.forall_mem_cons] at hevents
    rw [List.flatMap_cons, List.append_assoc] at hseen
    obtain ⟨event', m₁, rfl, hevent, hrest⟩ := exists_frame_of_seen hseen
    obtain ⟨added, hadds, hsame, hlonger⟩ := exists_adds_of_seen hevents.1 hevent hread.1
    obtain ⟨events', added', m', rfl, hm', hare, hadds', hsame', hlonger'⟩ :=
      ih hevents.2 hread.2 hrest
    refine ⟨event' :: events', added ++ added', m', (List.append_assoc ..).symm, ?_, ?_, ?_, ?_, ?_⟩
    · rw [List.flatMap_cons, encode_append, List.length_append, ← Nat.add_assoc]
      exact hm'
    · exact List.forall_mem_cons.mpr ⟨isEvent_of_seen hevent hevents.1.isEvent, hare⟩
    · intro s
      obtain ⟨s₁, hfirst, hsent⟩ := hadds s
      obtain ⟨s₂, hlater, hsent'⟩ := hadds' s₁
      refine ⟨s₂, by rw [List.foldlM_cons, hfirst]; exact hlater, ?_⟩
      rw [hsent', hsent, List.append_assoc]
    · intro hintact
      rw [List.flatMap_cons, hsame hintact.1, hsame' hintact.2]
    · intro hnot
      rw [List.flatMap_cons, List.flatten_append, List.flatten_append, List.length_append,
        List.length_append]
      -- a cut that is read adds a character, and no other cut takes one away
      by_cases hfirst : Inert readChunk event ∨ Intact cut o event
      · have hlt := hlonger' fun hlater => hnot ⟨hfirst, hlater⟩
        rw [hsame hfirst]
        omega
      · have hlt := hlonger hfirst
        by_cases hlater : IntactWhereRead readChunk cut (o + (encode (frame event)).length) events
        · rw [hsame' hlater]
          omega
        · have hlt' := hlonger' hlater
          omega

theorem singleBytes_streamDone : SingleBytes (frame (DATA ++ STREAM_DONE)) := by decide

theorem isEvent_streamDone : IsEvent (DATA ++ STREAM_DONE) := by decide

theorem generateEvent_streamDone (s : Forwarding) :
    generateEvent readChunk always s (DATA ++ STREAM_DONE) = .error (.done s) := by
  have hlf : '\n' ∉ STREAM_DONE := by decide
  rw [generateEvent, lines_data hlf, List.foldlM_cons, generateLine, dropPrefix?_append]
  simp only [if_pos]
  rfl

/-- What `generate` leaves behind where the backend's stream arrives to its end. -/
theorem exists_generate {events : List (List Char)} {chunks : List (List UInt8)}
    {trailing : List UInt8} (later : List (Except ε (List UInt8)))
    (hevents : ∀ e ∈ events, Upstream e)
    (hread : AtEach (fun o e => Carried readChunk e ∨ Inert readChunk e
      ∨ Intact (· ∈ borders 0 chunks) o e) 0 events)
    (h : chunks.flatten = encode (upstreamText events) ++ trailing) :
    ∃ (added : List (List Char)) (warned : Bool),
      generate readChunk always (chunks.map .ok ++ later) = ⟨added, .ok (), warned⟩
      ∧ (IntactWhereRead readChunk (· ∈ borders 0 chunks) 0 events →
          added = events.flatMap (contentDeltas readChunk))
      ∧ (¬IntactWhereRead readChunk (· ∈ borders 0 chunks) 0 events →
          (events.flatMap (contentDeltas readChunk)).flatten.length < added.flatten.length) := by
  obtain ⟨m, junk, hm, hseen⟩ := seen_flatMap_lossy h
  obtain ⟨events', added, m', rfl, hdone, hare, hadds, hsame, hlonger⟩ :=
    exists_adds_of_seen_events hevents hread hseen
  obtain rfl := singleBytes_streamDone.eq_of_seen hdone
  obtain ⟨s', hfold, hsent⟩ := hadds ⟨[], false, false⟩
  have hdrain : drain (generateEvent readChunk always) ⟨[], false, false⟩
      ([] ++ chunks.flatMap lossy) = .error (.done s') := by
    rw [hm, List.nil_append, List.append_assoc, drain_events hare, hfold]
    show drain (generateEvent readChunk always) s' (frame (DATA ++ STREAM_DONE) ++ junk) = _
    rw [drain_of_cutEvent (cutEvent_frame isEvent_streamDone junk), generateEvent_streamDone]
    rfl
  refine ⟨added, s'.sawReasoning && !s'.sawContent, ?_, hsame, hlonger⟩
  rw [generate, readLoop_chunks rfl, hdrain]
  show (⟨s'.sent, .ok (), s'.sawReasoning && !s'.sawContent⟩ : Generated ε) = _
  rw [hsent]
  rfl

end Generate

/-! ## A reader of JSON -/

/-- The value of a hexadecimal digit. -/
def fromHex (d : Char) : ℕ := if d.toNat < 58 then d.toNat - 48 else d.toNat - 87

/-- The character after a backslash, and what follows it. -/
def readEscape : List Char → Option (Char × List Char)
  | 'n' :: rest => some ('\n', rest)
  | 'r' :: rest => some ('\r', rest)
  | 't' :: rest => some ('\t', rest)
  | 'b' :: rest => some (Char.ofNat 8, rest)
  | 'f' :: rest => some (Char.ofNat 12, rest)
  | 'u' :: a :: b :: c :: d :: rest =>
    some (Char.ofNat (fromHex a * 4096 + fromHex b * 256 + fromHex c * 16 + fromHex d), rest)
  | c :: rest => some (c, rest)
  | [] => none

/-- The content of a string literal of fewer characters than given, and what follows it. -/
def readString : ℕ → List Char → Option (List Char × List Char)
  | 0, _ => none
  | _ + 1, [] => none
  | n + 1, c :: rest =>
    if c = '"' then some ([], rest)
    else if c = '\\' then
      (readEscape rest).bind fun (d, more) => (readString n more).map fun (t, end_) => (d :: t, end_)
    else (readString n rest).map fun (t, end_) => (c :: t, end_)

theorem readString_jsonEscape (n : ℕ) (c : Char) (rest : List Char) :
    readString (n + 1) ((jsonEscape c).toList ++ rest)
      = (readString n rest).map fun (t, end_) => (c :: t, end_) := by
  have hhex : ∀ m < 16, fromHex (Nat.digitChar m) = m := by decide
  unfold jsonEscape
  split
  case isTrue h => subst h; rfl
  split
  case isTrue h => subst h; rfl
  split
  case isTrue h => subst h; rfl
  split
  case isTrue h => subst h; rfl
  split
  case isTrue h => subst h; rfl
  split
  case isTrue h =>
    obtain rfl : c = Char.ofNat 8 := by rw [← h, Char.ofNat_toNat]
    rfl
  split
  case isTrue h =>
    obtain rfl : c = Char.ofNat 12 := by rw [← h, Char.ofNat_toNat]
    rfl
  split
  -- the other control characters are escaped by two hexadecimal digits
  case isTrue hctl =>
    have hchar : Char.ofNat (fromHex '0' * 4096 + fromHex '0' * 256
        + fromHex (Nat.digitChar (c.toNat / 16)) * 16 + fromHex (Nat.digitChar (c.toNat % 16))) = c := by
      have hzero : fromHex '0' = 0 := by decide
      have hsum : c.toNat / 16 * 16 + c.toNat % 16 = c.toNat := by omega
      rw [hhex _ (by omega), hhex _ (by omega), hzero, Nat.zero_mul, Nat.add_assoc, hsum,
        Nat.zero_add, Char.ofNat_toNat]
    rw [String.toList_append, String.toList_append, String.toList_singleton, String.toList_singleton]
    show (readString n rest).map (fun (t, end_) => (Char.ofNat (fromHex '0' * 4096 + fromHex '0' * 256
        + fromHex (Nat.digitChar (c.toNat / 16)) * 16 + fromHex (Nat.digitChar (c.toNat % 16))) :: t,
        end_)) = _
    rw [hchar]
  case isFalse hquote hback _ _ _ _ _ _ =>
    rw [String.toList_singleton, List.singleton_append, readString, if_neg hquote, if_neg hback]

theorem readString_escapeText {n : ℕ} {text : List Char} (h : text.length < n) (rest : List Char) :
    readString n (escapeText text ++ '"' :: rest) = some (text, rest) := by
  induction text generalizing n with
  | nil =>
    obtain ⟨n, rfl⟩ := Nat.exists_eq_succ_of_ne_zero (Nat.ne_of_gt h)
    rfl
  | cons c text ih =>
    obtain ⟨n, rfl⟩ := Nat.exists_eq_succ_of_ne_zero (Nat.ne_of_gt (Nat.zero_lt_of_lt h))
    rw [escapeText_cons, List.append_assoc, readString_jsonEscape, ih (Nat.lt_of_succ_lt_succ h)]
    rfl

theorem length_le_escapeText (text : List Char) : text.length ≤ (escapeText text).length := by
  induction text with
  | nil => exact Nat.le_refl _
  | cons c text ih =>
    have hpos : 0 < (jsonEscape c).toList.length := by
      refine List.length_pos_of_ne_nil fun hnil => ?_
      have hread := readString_jsonEscape 1 c ['"']
      rw [hnil] at hread
      exact absurd hread (by simp [readString])
    rw [escapeText_cons, List.length_append, List.length_cons]
    omega

/-- What follows the opening of a literal, where it is text and a known rest. -/
def readBetween (front back data : List Char) : Option (List Char) :=
  (data.dropPrefix? front).bind fun rest =>
    (readString (rest.length + 1) rest).bind fun (text, more) =>
      if '"' :: more = back then some text else none

theorem readBetween_escapeText (front text back : List Char) {more : List Char}
    (hback : back = '"' :: more) :
    readBetween front back (front ++ (escapeText text ++ back)) = some text := by
  have hlen : text.length < (escapeText text ++ back).length + 1 := by
    have hle := length_le_escapeText text
    rw [List.length_append]
    omega
  subst hback
  rw [readBetween, dropPrefix?_append]
  show (readString _ (escapeText text ++ '"' :: more)).bind _ = _
  rw [readString_escapeText hlen]
  exact if_pos rfl

/-- A string, or an object with strings for its members. -/
inductive FlatValue
  | string (text : List Char)
  | object (members : List (List Char × List Char))

def flatFromStr (data : List Char) : Option FlatValue :=
  if data = doneData then some (.object [(KIND, DONE)])
  else (readBetween tokenOpen tokenClose data).map fun content =>
    .object [(CONTENT, content), (KIND, TOKEN)]

/-- Reads what the server writes. -/
def flatJson : Json where
  Value := FlatValue
  fromStr := flatFromStr
  get
    | .object members, key => (members.lookup key).map .string
    | .string _, _ => none
  asStr
    | .string text => some text
    | .object _ => none

theorem flatJson_lawful : flatJson.Lawful where
  token content := by
    have hne : tokenData content ≠ doneData := by
      intro heq
      have hsecond := congrArg (fun data => data[2]?) heq
      exact absurd hsecond (by show some 'c' ≠ some 'k'; decide)
    refine ⟨FlatValue.object [(CONTENT, content), (KIND, TOKEN)], ?_, rfl, rfl⟩
    show flatFromStr (tokenData content) = _
    rw [flatFromStr, if_neg hne, tokenData, readBetween_escapeText tokenOpen content tokenClose rfl]
    rfl
  done := by
    refine ⟨FlatValue.object [(KIND, DONE)], ?_, rfl⟩
    show flatFromStr doneData = _
    rw [flatFromStr]
    exact if_pos rfl

/-- A chunk as a chat backend writes it, around the content. -/
def chunkOpen : List Char := "\x7b\"choices\":[\x7b\"delta\":\x7b\"content\":\"".toList
def chunkClose : List Char := "\"\x7d\x7d]\x7d".toList

/-- Reads a chunk of one choice. -/
def flatChunk (data : List Char) : Option (List Delta) :=
  (readBetween chunkOpen chunkClose data).map fun content => [⟨some content, none⟩]

theorem flatChunk_carries : Carries flatChunk chunkOpen chunkClose where
  opens := rfl
  front_single := by decide
  back_single := by decide
  lf_not_mem := by decide
  reads content := by
    refine ⟨[⟨some content, none⟩], ?_, rfl⟩
    rw [flatChunk, readBetween_escapeText chunkOpen content chunkClose rfl]
    rfl

/-! ## The law -/

/-- The client returns the tokens of the stream. -/
def DecodesTokens (J : Json) (items : List SseItem) {ε : Type*}
    (stream : List (Except ε (List UInt8))) : Prop :=
  llmComplete J stream = .ok (tokensText items)

/-- The server forwards the contents of the events, and the generation succeeds. -/
def ForwardsContents (readChunk : List Char → Option (List Delta)) (events : List (List Char))
    {ε : Type*} (stream : List (Except ε (List UInt8))) : Prop :=
  (generate readChunk always stream).sent = events.flatMap (contentDeltas readChunk)
    ∧ (generate readChunk always stream).result = .ok ()

section Law

variable {ε : Type*} {readChunk : List Char → Option (List Delta)} {events : List (List Char)}
  {chunks : List (List UInt8)} {trailing : List UInt8}

theorem forwardsContents_of_intact (later : List (Except ε (List UInt8)))
    (hevents : ∀ e ∈ events, Upstream e)
    (h : chunks.flatten = encode (upstreamText events) ++ trailing)
    (hintact : IntactWhereRead readChunk (· ∈ borders 0 chunks) 0 events) :
    ForwardsContents readChunk events (chunks.map .ok ++ later) := by
  obtain ⟨added, warned, hgenerate, hsame, -⟩ :=
    exists_generate later hevents (hintact.mono fun _ _ _ hread => .inr hread) h
  rw [ForwardsContents, hgenerate]
  exact ⟨hsame hintact, rfl⟩

theorem intact_of_forwardsContents (later : List (Except ε (List UInt8)))
    (hevents : ∀ e ∈ events, Upstream e)
    (hread : ∀ e ∈ events, Carried readChunk e ∨ Inert readChunk e)
    (h : chunks.flatten = encode (upstreamText events) ++ trailing)
    (hforwards : ForwardsContents readChunk events (chunks.map .ok ++ later)) :
    IntactWhereRead readChunk (· ∈ borders 0 chunks) 0 events := by
  have hat : AtEach (fun o e => Carried readChunk e ∨ Inert readChunk e
      ∨ Intact (· ∈ borders 0 chunks) o e) 0 events :=
    (atEach_true events).mono fun _ e he _ => (hread e he).imp_right .inl
  obtain ⟨added, warned, hgenerate, -, hlonger⟩ := exists_generate later hevents hat h
  rw [ForwardsContents, hgenerate] at hforwards
  by_contra hnot
  have hadded : added = _ := hforwards.1
  have hlt := hlonger hnot
  rw [hadded] at hlt
  exact Nat.lt_irrefl _ hlt

/-- The client returns the tokens exactly when no chunk ends inside a character of the stream, and
    the server forwards the contents when no chunk ends inside a character of what is read, and
    only then where an event carries one content or nothing that a cut can change. -/
theorem decodingLaw_iff {J : Json} (hJ : J.Lawful) {items : List SseItem}
    {received : List (List UInt8)} {after : List UInt8} (more later : List (Except ε (List UInt8)))
    (hstream : received.flatten = encode (sseText items) ++ after)
    (hevents : ∀ e ∈ events, Upstream e)
    (h : chunks.flatten = encode (upstreamText events) ++ trailing) :
    (DecodesTokens J items (received.map .ok ++ more)
        ↔ Intact (· ∈ borders 0 received) 0 (sseText items))
      ∧ (IntactWhereRead readChunk (· ∈ borders 0 chunks) 0 events →
          ForwardsContents readChunk events (chunks.map .ok ++ later))
      ∧ ((∀ e ∈ events, Carried readChunk e ∨ Inert readChunk e) →
          ForwardsContents readChunk events (chunks.map .ok ++ later) →
          IntactWhereRead readChunk (· ∈ borders 0 chunks) 0 events) :=
  ⟨llmComplete_iff hJ more hstream, forwardsContents_of_intact later hevents h,
    fun hread => intact_of_forwardsContents later hevents hread h⟩

end Law

/-- A chunk of the backend with this content. -/
def chunkEvent (content : List Char) : List Char :=
  DATA ++ (chunkOpen ++ (escapeText content ++ chunkClose))

theorem upstream_chunkEvent (content : List Char) : Upstream (chunkEvent content) where
  isEvent := by
    refine isEvent_of_not_mem fun hmem => ?_
    exact (List.mem_append.mp hmem).elim lf_not_mem_data
      (flatChunk_carries.lf_not_mem_payload content)
  continues := flatChunk_carries.not_endsStream content

theorem flatten_cut (n : ℕ) (bytes : List UInt8) :
    [bytes.take n, bytes.drop n].flatten = bytes ++ [] := by
  rw [List.append_nil, List.flatten_cons, List.flatten_singleton, List.take_append_drop]

theorem flatten_whole (bytes : List UInt8) : [bytes].flatten = bytes ++ [] := by
  rw [List.append_nil, List.flatten_singleton]

/-- A stream that ends in two chunks, one of them inside the character. -/
theorem decodingLaw_cut :
    (DecodesTokens flatJson [.keepAlive, .token ['é']]
        ([(encode (sseText [.keepAlive, .token ['é']])).take 22,
          (encode (sseText [.keepAlive, .token ['é']])).drop 22].map .ok ++ ([] : List (Except Unit _)))
        ↔ Intact (· ∈ borders 0 [(encode (sseText [.keepAlive, .token ['é']])).take 22,
          (encode (sseText [.keepAlive, .token ['é']])).drop 22]) 0 (sseText [.keepAlive, .token ['é']]))
      ∧ (IntactWhereRead flatChunk (· ∈ borders 0 [encode (upstreamText [chunkEvent ['é']])]) 0
            [chunkEvent ['é']] →
          ForwardsContents flatChunk [chunkEvent ['é']]
            ([encode (upstreamText [chunkEvent ['é']])].map .ok ++ ([] : List (Except Unit _))))
      ∧ ((∀ e ∈ [chunkEvent ['é']], Carried flatChunk e ∨ Inert flatChunk e) →
          ForwardsContents flatChunk [chunkEvent ['é']]
            ([encode (upstreamText [chunkEvent ['é']])].map .ok ++ ([] : List (Except Unit _))) →
          IntactWhereRead flatChunk (· ∈ borders 0 [encode (upstreamText [chunkEvent ['é']])]) 0
            [chunkEvent ['é']]) :=
  decodingLaw_iff flatJson_lawful [] [] (flatten_cut 22 _)
    (List.forall_mem_singleton.mpr (upstream_chunkEvent ['é'])) (flatten_whole _)

/-- One token of one character, whose two bytes arrive in two chunks. -/
theorem not_decodesTokens_of_cut :
    ¬DecodesTokens flatJson [.token ['é']]
      ([.ok ((encode (sseText [.token ['é']])).take 19),
        .ok ((encode (sseText [.token ['é']])).drop 19)] : List (Except Unit _)) := by
  intro h
  have hintact := (llmComplete_iff flatJson_lawful [] (flatten_cut 19 _)).mp h
  have hsplit : sseText [.token ['é']]
      = (DATA ++ tokenOpen) ++ 'é' :: (tokenClose ++ '\n' :: '\n' :: frame (DATA ++ doneData)) := by
    decide
  rw [hsplit, intact_append] at hintact
  refine hintact.2.1 19 ?_ (by decide)
  rw [← hsplit]
  decide

end Llm
end Inkentry
