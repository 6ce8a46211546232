/-
  Inkentry.Llm.Events

  The two event streams of a completion: from the chat backend to the server
  (`generate`), and from the server to the client (`llmComplete`).  Both readers
  turn each chunk of bytes into text, join it to what is left over, and handle
  every event that an empty line ends.

  The reader of JSON is third-party code and enters as a parameter.
-/

import Inkentry.Lib.EventStream
import Inkentry.Lib.TextLines
import Inkentry.Lib.Utf8Chunks
import Inkentry.Record

namespace Inkentry
namespace Llm

open EventStream Utf8

/-! ## JSON -/

/-- The members of a string literal. -/
def escapeText (text : List Char) : List Char := text.flatMap fun c => (jsonEscape c).toList

/-- Values as the JSON library reads them. -/
structure Json where
  Value : Type
  fromStr : List Char → Option Value
  get : Value → List Char → Option Value
  asStr : Value → Option (List Char)

/-- A member that is a string. -/
def Json.str (J : Json) (val : J.Value) (key : List Char) : Option (List Char) :=
  (J.get val key).bind J.asStr

def KIND : List Char := "kind".toList
def CONTENT : List Char := "content".toList
def MESSAGE : List Char := "message".toList
def TOKEN : List Char := "token".toList
def DONE : List Char := "done".toList
def ERROR : List Char := "error".toList

/-- A fragment as the server writes it; the library writes the keys in order. -/
def tokenOpen : List Char := "\x7b\"content\":\"".toList
def tokenClose : List Char := "\",\"kind\":\"token\"\x7d".toList

def tokenData (content : List Char) : List Char := tokenOpen ++ (escapeText content ++ tokenClose)

def doneData : List Char := "\x7b\"kind\":\"done\"\x7d".toList

/-- The library reads what the server writes. -/
structure Json.Lawful (J : Json) : Prop where
  token (content : List Char) : ∃ val, J.fromStr (tokenData content) = some val
    ∧ J.str val KIND = some TOKEN ∧ J.str val CONTENT = some content
  done : ∃ val, J.fromStr doneData = some val ∧ J.str val KIND = some DONE

/-! ## The server's stream -/

/-- What the server sends before the terminal event. -/
inductive SseItem
  | token (content : List Char)
  | keepAlive
  deriving DecidableEq

def DATA : List Char := "data: ".toList

def SseItem.event : SseItem → List Char
  | .token content => DATA ++ tokenData content
  | .keepAlive => [':']

def SseItem.content : SseItem → List Char
  | .token content => content
  | .keepAlive => []

/-- The text of the response, from the first event to the terminal one. -/
def sseText (items : List SseItem) : List Char :=
  (items.map SseItem.event ++ [DATA ++ doneData]).flatMap frame

/-- The concatenation of the tokens. -/
def tokensText (items : List SseItem) : List Char := items.flatMap SseItem.content

/-! ## The client -/

inductive CompleteError
  /-- The stream could not be read. -/
  | reading
  /-- The server reported an error. -/
  | stream (msg : List Char)
  deriving DecidableEq

def CompleteError.text : CompleteError → List Char
  | .reading => "reading /llm/complete SSE stream".toList
  | .stream msg => "llm/complete stream error: ".toList ++ msg

variable {ε : Type*}

/-- One line of an event; the error is what the client returns there. -/
def completeLine (J : Json) (output line : List Char) :
    Except (Except CompleteError (List Char)) (List Char) :=
  match line.dropPrefix? DATA with
  | none => .ok output
  | some data =>
    if data = [] then .ok output
    else match J.fromStr data with
      | none => .ok output
      | some val =>
        match J.str val KIND with
        | none => .ok output
        | some kind =>
          if kind = TOKEN then .ok (output ++ (J.str val CONTENT).getD [])
          else if kind = DONE then .error (.ok output)
          else if kind = ERROR then
            .error (.error (.stream ((J.str val MESSAGE).getD "unknown error".toList)))
          else .ok output

def completeEvent (J : Json) (output event : List Char) :
    Except (Except CompleteError (List Char)) (List Char) :=
  (TextLines.lines event).foldlM (completeLine J) output

/-- The client's reader, from the start of the response body. -/
def llmComplete (J : Json) (stream : List (Except ε (List UInt8))) :
    Except CompleteError (List Char) :=
  match readLoop (completeEvent J) lossy [] [] stream with
  | .returned result => result
  | .failed _ _ => .error .reading
  | .ended output => .ok output

/-! ## The server as the backend's client -/

/-- A delta of a choice. -/
structure Delta where
  content : Option (List Char)
  reasoningContent : Option (List Char)
  deriving DecidableEq

/-- What `generate` has done so far. -/
structure Forwarding where
  /-- The contents that went into the channel, in order. -/
  sent : List (List Char)
  sawContent : Bool
  sawReasoning : Bool
  deriving DecidableEq

/-- Why `generate` stops before the stream ends. -/
inductive Stop
  | done (s : Forwarding)
  | receiverGone (s : Forwarding)
  deriving DecidableEq

/-- One delta; `listens n` says whether the receiver takes the fragment that has `n` before it. -/
def takeDelta (listens : ℕ → Bool) (s : Forwarding) (delta : Delta) : Except Stop Forwarding :=
  let s := { s with sawReasoning := s.sawReasoning || delta.reasoningContent.any (· ≠ []) }
  match delta.content with
  | none => .ok s
  | some content =>
    if content = [] then .ok s
    else if listens s.sent.length then
      .ok { s with sent := s.sent ++ [content], sawContent := true }
    else .error (.receiverGone { s with sawContent := true })

def STREAM_DONE : List Char := "[DONE]".toList

def generateLine (readChunk : List Char → Option (List Delta)) (listens : ℕ → Bool)
    (s : Forwarding) (line : List Char) : Except Stop Forwarding :=
  match line.dropPrefix? DATA with
  | none => .ok s
  | some data =>
    if data = STREAM_DONE then .error (.done s)
    else if data = [] then .ok s
    else match readChunk data with
      | none => .ok s
      | some deltas => deltas.foldlM (takeDelta listens) s

def generateEvent (readChunk : List Char → Option (List Delta)) (listens : ℕ → Bool)
    (s : Forwarding) (event : List Char) : Except Stop Forwarding :=
  (TextLines.lines event).foldlM (generateLine readChunk listens) s

/-- What a call of `generate` leaves behind. -/
structure Generated (ε : Type*) where
  sent : List (List Char)
  result : Except ε Unit
  /-- It warned that the model reasoned and did not answer. -/
  warned : Bool

def generate (readChunk : List Char → Option (List Delta)) (listens : ℕ → Bool)
    (stream : List (Except ε (List UInt8))) : Generated ε :=
  match readLoop (generateEvent readChunk listens) lossy ⟨[], false, false⟩ [] stream with
  | .returned (.receiverGone s) => ⟨s.sent, .ok (), false⟩
  | .returned (.done s) => ⟨s.sent, .ok (), s.sawReasoning && !s.sawContent⟩
  | .ended s => ⟨s.sent, .ok (), s.sawReasoning && !s.sawContent⟩
  | .failed e s => ⟨s.sent, .error e, false⟩

end Llm
end Inkentry
