/-
  Inkentry.Llm.Completion

  How a completion ends.  The generation can finish, fail, run out of its
  budget or lose its backend; the server closes its stream with the same
  terminal event each time, and the client takes a stream that stops for one
  that is finished.

  So a result of the client is the whole completion where the generation
  finished and nothing of it is missing or garbled, and hardly otherwise
  (`completionLaw`).
-/

import Inkentry.Llm.Decoding

namespace Inkentry
namespace Llm

open EventStream Utf8

variable {ε : Type*}

/-! ## The generation -/

variable {items : List SseItem}
variable {chunks : List (List UInt8)}

/-- How a generation ends. -/
inductive GenEnd
  | finished
  /-- The backend returned an error. -/
  | failed
  /-- The budget of the generation ran out. -/
  | elapsed
  /-- The backend's stream stopped before its end. -/
  | upstreamCut
  deriving DecidableEq

structure Generation where
  /-- The fragments that went into the channel. -/
  tokens : List (List Char)
  ending : GenEnd

/-- What a call of `generate` under a budget comes to. -/
inductive Timed (ε : Type*)
  | returned (result : Except ε Unit)
  | elapsed

/-- A backend's stream that stops is the end of the stream to `generate`. -/
def GenEnd.timed (err : ε) : GenEnd → Timed ε
  | .finished => .returned (.ok ())
  | .failed => .returned (.error err)
  | .elapsed => .elapsed
  | .upstreamCut => .returned (.ok ())

/-- What the receiver of the channel gets before the channel is closed; a result that is no
    success is written to the log. -/
def llmGenerateWithTimeout (tokens : List (List Char)) : Timed ε → List (List Char)
  | .returned (.ok ()) => tokens
  | .returned (.error _) => tokens
  | .elapsed => tokens

def SseItem.token? : SseItem → Option (List Char)
  | .token content => some content
  | .keepAlive => none

/-- The server streams what the receiver gets, with keep-alives wherever it is idle. -/
def Streams (err : ε) (gen : Generation) (items : List SseItem) : Prop :=
  items.filterMap SseItem.token? = llmGenerateWithTimeout gen.tokens (gen.ending.timed err)

theorem tokensText_eq (items : List SseItem) :
    tokensText items = (items.filterMap SseItem.token?).flatten := by
  induction items with
  | nil => rfl
  | cons item items ih =>
    cases item with
    | token content => exact congrArg (content ++ ·) ih
    | keepAlive => exact ih

variable {gen : Generation}

/-- However the generation ends, the server streams the fragments that it had. -/
theorem Streams.tokensText_eq {err : ε}
    (h : Streams err gen items) : tokensText items = gen.tokens.flatten := by
  have hgen : llmGenerateWithTimeout gen.tokens (gen.ending.timed err) = gen.tokens := by
    cases gen.ending <;> rfl
  rw [Llm.tokensText_eq, h, hgen]

/-- A text that is read through cuts has the line feeds that its bytes have. -/
theorem count_lf_junk {cut : ℕ → Prop} {o : ℕ} {text m junk : List Char} {trailing : List UInt8}
    (hchunks : chunks.flatten = encode text ++ trailing) (hread : chunks.flatMap lossy = m ++ junk)
    (hseen : Seen cut o text m) : junk.count '\n' = trailing.count 10 := by
  have hcount := count_lf_flatMap_lossy chunks
  rw [hread, hchunks, List.count_append, List.count_append, count_lf_encode, hseen.count_lf] at hcount
  omega

/-! ## What arrives of the server's stream -/

/-- The events that are complete within the first bytes. -/
def arrived : ℕ → List SseItem → List SseItem
  | _, [] => []
  | n, item :: items =>
    if (encode (frame item.event)).length ≤ n then
      item :: arrived (n - (encode (frame item.event)).length) items
    else []

/-- The events that are not. -/
def missing (n : ℕ) (items : List SseItem) : List SseItem := items.drop (arrived n items).length

theorem arrived_append_missing (n : ℕ) (items : List SseItem) :
    arrived n items ++ missing n items = items := by
  unfold missing
  induction items generalizing n with
  | nil => rfl
  | cons item items ih =>
    rw [arrived]
    split
    · rw [List.cons_append, List.length_cons, List.drop_succ_cons, ih]
    · rfl

theorem arrived_of_length_le {n : ℕ}
    (h : (encode ((items.map SseItem.event).flatMap frame)).length ≤ n)
    : arrived n items = items := by
  induction items generalizing n with
  | nil => rfl
  | cons item items ih =>
    rw [List.map_cons, List.flatMap_cons, encode_append, List.length_append] at h
    rw [arrived, if_pos (by omega), ih (by omega)]

theorem count_lf_of_prefix {event : List Char} (h : '\n' ∉ event) {bytes : List UInt8}
    (hstart : bytes <+: encode (frame event)) (hlt : bytes.length < (encode (frame event)).length) :
    bytes.count 10 ≤ 1 := by
  have hframe : encode (frame event) = (encode event ++ [10]) ++ [10] := by
    rw [frame, encode_append, List.append_assoc]
    rfl
  rw [hframe, List.length_append, List.length_singleton] at hlt
  rw [hframe] at hstart
  have hshort : bytes <+: encode event ++ [10] :=
    List.prefix_of_prefix_length_le hstart (List.prefix_append ..) (by omega)
  refine Nat.le_trans (hshort.sublist.count_le 10) ?_
  rw [List.count_append, count_lf_encode, List.count_eq_zero_of_not_mem h]
  simp

theorem SseItem.lf_not_mem (item : SseItem) : '\n' ∉ item.event := by
  cases item with
  | token content =>
    exact fun hmem => (List.mem_append.mp hmem).elim lf_not_mem_data (lf_not_mem_tokenData content)
  | keepAlive => decide

/-- A part of the server's stream is its first events, and less than an event. -/
theorem exists_rest_of_prefix {bytes : List UInt8} (hstart : bytes <+: encode (sseText items))
    (hlt : bytes.length < (encode (sseText items)).length) :
    ∃ rest, bytes = encode (((arrived bytes.length items).map SseItem.event).flatMap frame) ++ rest
      ∧ rest.count 10 ≤ 1 := by
  rw [sseText_eq] at hstart hlt
  induction items generalizing bytes with
  | nil =>
    have hdone : '\n' ∉ DATA ++ doneData :=
      fun hmem => (List.mem_append.mp hmem).elim lf_not_mem_data lf_not_mem_doneData
    exact ⟨bytes, rfl, count_lf_of_prefix hdone hstart hlt⟩
  | cons item items ih =>
    rw [List.map_cons, List.flatMap_cons, List.append_assoc, encode_append] at hstart hlt
    rw [arrived]
    split
    case isTrue hle =>
      obtain ⟨bytes, rfl⟩ := List.prefix_of_prefix_length_le (List.prefix_append ..) hstart hle
      rw [List.prefix_append_right_inj] at hstart
      rw [List.length_append, List.length_append] at hlt
      obtain ⟨rest, hrest, hcount⟩ := ih hstart (by omega)
      refine ⟨rest, ?_, hcount⟩
      rw [List.length_append, Nat.add_sub_cancel_left, List.map_cons, List.flatMap_cons, encode_append,
        List.append_assoc, ← hrest]
    case isFalse hgt =>
      have hshort : bytes <+: encode (frame item.event) :=
        List.prefix_of_prefix_length_le hstart (List.prefix_append ..) (by omega)
      exact ⟨bytes, rfl, count_lf_of_prefix item.lf_not_mem hshort (by omega)⟩

/-! ## How the client's reading ends -/

/-- How the connection ends after the last bytes. -/
inductive Closing
  | eof
  | readError
  deriving DecidableEq

def Closing.later (err : ε) : Closing → List (Except ε (List UInt8))
  | .eof => []
  | .readError => [.error err]

/-- The text of the events that arrive. -/
def arrivedText (chunks : List (List UInt8)) (items : List SseItem) : List Char :=
  ((arrived chunks.flatten.length items).map SseItem.event).flatMap frame

/-- The client's result, whatever arrives of the server's stream. -/
theorem exists_llmComplete_of_prefix {J : Json} (hJ : J.Lawful)
    (hchunks : chunks.flatten <+: encode (sseText items)) (err : ε) (closing : Closing) :
    ∃ items' : List SseItem,
      llmComplete J (chunks.map .ok ++ closing.later err)
          = (if closing = .readError ∧ chunks.flatten ≠ encode (sseText items)
            then .error .reading else .ok (tokensText items'))
      ∧ (Intact (· ∈ borders 0 chunks) 0 (arrivedText chunks items) →
          tokensText items' = tokensText (arrived chunks.flatten.length items))
      ∧ (¬Intact (· ∈ borders 0 chunks) 0 (arrivedText chunks items) →
          Garbled (tokensText (arrived chunks.flatten.length items)) (tokensText items')) := by
  by_cases hall : chunks.flatten = encode (sseText items)
  · have hlen : (encode ((items.map SseItem.event).flatMap frame)).length ≤ chunks.flatten.length := by
      rw [hall, sseText_eq, encode_append, List.length_append]
      exact Nat.le_add_right ..
    obtain ⟨items', hresult, hsame⟩ := exists_llmComplete hJ (closing.later err)
      (hall.trans (List.append_nil _).symm)
    rw [intact_sseText] at hsame
    rw [arrivedText, arrived_of_length_le hlen]
    exact ⟨items', hresult.trans (if_neg fun h => h.2 hall).symm, hsame⟩
  · have hlt : chunks.flatten.length < (encode (sseText items)).length :=
      Nat.lt_of_le_of_ne hchunks.length_le fun hlen => hall (hchunks.eq_of_length hlen)
    obtain ⟨rest, hrest, hcount⟩ := exists_rest_of_prefix hchunks hlt
    obtain ⟨m, junk, hread, hseen⟩ := seen_flatMap_lossy hrest
    -- what is left of a cut frame has too few line feeds to be an event
    have hjunk := count_lf_junk hrest hread hseen
    rw [← List.append_nil (List.flatMap _ _)] at hseen
    obtain ⟨items', m', rfl, hend, hsame⟩ := exists_items_of_seen hseen
    cases hend
    have hdrain : drain (completeEvent J) [] ([] ++ chunks.flatMap lossy)
        = .ok (tokensText items', junk) := by
      rw [hread, List.nil_append, List.append_nil, drain_events (isEvent_items items'),
        completeEvent_items hJ]
      show drain (completeEvent J) (tokensText items') junk = _
      exact drain_of_cutEvent_eq_none (cutEvent_eq_none_of_count (by omega))
    refine ⟨items', ?_, hsame⟩
    rw [llmComplete, readLoop_chunks rfl, hdrain]
    cases closing with
    | eof => exact (if_neg fun h => absurd h.1 (by simp)).symm
    | readError => exact (if_pos ⟨rfl, hall⟩).symm

/-! ## The law -/

/-- A success of the client is a finished generation, with all that it generated. -/
def SuccessIsComplete (J : Json) (gen : Generation) (stream : List (Except ε (List UInt8))) : Prop :=
  ∀ output, llmComplete J stream = .ok output →
    gen.ending = .finished ∧ output = gen.tokens.flatten

/-- The stream fails before the terminal event is complete, or the generation finished, what did
    not arrive has no content, and no cut falls into what did. -/
def EndsWell (gen : Generation) (items : List SseItem) (chunks : List (List UInt8))
    (closing : Closing) : Prop :=
  (closing = .readError ∧ chunks.flatten ≠ encode (sseText items))
    ∨ gen.ending = .finished
      ∧ (∀ item ∈ missing chunks.flatten.length items, item.content = [])
      ∧ Intact (· ∈ borders 0 chunks) 0 (arrivedText chunks items)

theorem tokensText_arrived (n : ℕ) (items : List SseItem) :
    tokensText items = tokensText (arrived n items) ++ tokensText (missing n items) := by
  rw [tokensText, tokensText, tokensText, ← List.flatMap_append, arrived_append_missing]

theorem successIsComplete_of_endsWell {J : Json} (hJ : J.Lawful) {err : ε}
    (hitems : Streams err gen items) (hchunks : chunks.flatten <+: encode (sseText items))
    {closing : Closing} (h : EndsWell gen items chunks closing) :
    SuccessIsComplete J gen (chunks.map .ok ++ closing.later err) := by
  intro output houtput
  obtain ⟨items', hresult, hsame, -⟩ := exists_llmComplete_of_prefix hJ hchunks err closing
  rw [hresult] at houtput
  split at houtput
  case isTrue => exact absurd houtput (by simp)
  case isFalse hread =>
    obtain ⟨hfinished, hmissing, hintact⟩ := h.resolve_left hread
    have hnone : tokensText (missing chunks.flatten.length items) = [] :=
      List.flatMap_eq_nil_iff.mpr hmissing
    refine ⟨hfinished, ?_⟩
    rw [← Except.ok.inj houtput, hsame hintact, ← hitems.tokensText_eq,
      tokensText_arrived chunks.flatten.length items, hnone, List.append_nil]

/-- A content that is garbled and one that is missing make up for each other only in a completion
    that has a replacement character itself. -/
theorem endsWell_of_successIsComplete {J : Json} (hJ : J.Lawful) {err : ε}
    (hitems : Streams err gen items) (hchunks : chunks.flatten <+: encode (sseText items))
    {closing : Closing} (hreplacement : replacement ∉ gen.tokens.flatten)
    (h : SuccessIsComplete J gen (chunks.map .ok ++ closing.later err)) :
    EndsWell gen items chunks closing := by
  obtain ⟨items', hresult, hsame, hgarbled⟩ := exists_llmComplete_of_prefix hJ hchunks err closing
  by_cases hread : closing = .readError ∧ chunks.flatten ≠ encode (sseText items)
  · exact .inl hread
  · obtain ⟨hfinished, houtput⟩ := h _ (hresult.trans (if_neg hread))
    have hintact : Intact (· ∈ borders 0 chunks) 0 (arrivedText chunks items) := by
      by_contra hcut
      have hmem := (hgarbled hcut).mem
      rw [houtput] at hmem
      exact hreplacement hmem
    refine .inr ⟨hfinished, ?_, hintact⟩
    rw [hsame hintact, ← hitems.tokensText_eq, tokensText_arrived chunks.flatten.length items] at houtput
    exact List.flatMap_eq_nil_iff.mp (List.self_eq_append_right.mp houtput)

/-- A success of the client is complete where the stream ends well, and only then where the
    completion has no replacement character of its own. -/
theorem completionLaw {J : Json} (hJ : J.Lawful) {gen : Generation} (err : ε)
    {items : List SseItem} (hitems : Streams err gen items) {chunks : List (List UInt8)}
    (hchunks : chunks.flatten <+: encode (sseText items)) (closing : Closing) :
    (EndsWell gen items chunks closing →
        SuccessIsComplete J gen (chunks.map .ok ++ closing.later err))
      ∧ (replacement ∉ gen.tokens.flatten →
          SuccessIsComplete J gen (chunks.map .ok ++ closing.later err) →
          EndsWell gen items chunks closing) :=
  ⟨successIsComplete_of_endsWell hJ hitems hchunks,
    endsWell_of_successIsComplete hJ hitems hchunks⟩

/-- A generation that finishes, and a connection that is closed after its second event. -/
theorem completionLaw_closed :
    (EndsWell ⟨[['a'], ['b']], .finished⟩ [.token ['a'], .keepAlive, .token ['b']]
          [(encode (sseText [.token ['a'], .keepAlive, .token ['b']])).take 50] .eof →
        SuccessIsComplete flatJson ⟨[['a'], ['b']], .finished⟩
          ([(encode (sseText [.token ['a'], .keepAlive, .token ['b']])).take 50].map .ok
            ++ Closing.eof.later ()))
      ∧ (replacement ∉ [['a'], ['b']].flatten →
          SuccessIsComplete flatJson ⟨[['a'], ['b']], .finished⟩
            ([(encode (sseText [.token ['a'], .keepAlive, .token ['b']])).take 50].map .ok
              ++ Closing.eof.later ()) →
          EndsWell ⟨[['a'], ['b']], .finished⟩ [.token ['a'], .keepAlive, .token ['b']]
            [(encode (sseText [.token ['a'], .keepAlive, .token ['b']])).take 50] .eof) :=
  have hitems : Streams () ⟨[['a'], ['b']], .finished⟩ [.token ['a'], .keepAlive, .token ['b']] := rfl
  completionLaw flatJson_lawful () hitems
    (by rw [List.flatten_singleton]; exact List.take_prefix ..) .eof

/-- The backend fails after one fragment, and the whole of the server's stream arrives. -/
theorem not_successIsComplete_of_failed :
    ¬SuccessIsComplete flatJson ⟨[['a']], .failed⟩
      ([encode (sseText [.token ['a']])].map .ok ++ Closing.eof.later ()) := by
  intro h
  have hitems : Streams () ⟨[['a']], .failed⟩ [.token ['a']] := rfl
  have hchunks : [encode (sseText [.token ['a']])].flatten <+: encode (sseText [.token ['a']]) := by
    exact List.flatten_singleton ▸ List.prefix_refl _
  have hwell : EndsWell ⟨[['a']], .failed⟩ [.token ['a']] [encode (sseText [.token ['a']])] .eof :=
    endsWell_of_successIsComplete flatJson_lawful hitems hchunks (by decide) h
  rcases hwell with hread | hfinished
  · exact absurd hread.1 (by decide)
  · exact absurd hfinished.1 (by decide)

end Llm
end Inkentry
