/-
  Inkentry.Harvest.Loop

  The work loop that the three harvests share in copies: a queue of batches, a
  request to the model for each, and an entry in the store for each entry of
  the answer.

  A batch whose text and answer would not fit the context window goes back as
  two halves.  The window is what the configuration says, the answer is what a
  model makes of the request, and neither is checked before a bound is clamped
  or a text is cut at a byte: `step` ends in a panic where that goes wrong.
-/

import Inkentry.Dump.Wire
import Inkentry.Harvest.GitLog
import Inkentry.Lib.Runs
import Inkentry.Lib.SplitQueue

namespace Inkentry
namespace Harvest

open PortableDump (Json)

/-! ## Text in bytes -/

def byteLen (s : List Char) : Nat := (s.map Char.utf8Size).sum

/-- A byte offset between two characters, or at an end. -/
def isCharBoundary : List Char → Nat → Bool
  | _, 0 => true
  | [], _ + 1 => false
  | c :: s, k + 1 => c.utf8Size ≤ k + 1 && isCharBoundary s (k + 1 - c.utf8Size)

/-- The characters that end by a byte offset. -/
def takeBytes : List Char → Nat → List Char
  | [], _ => []
  | c :: s, k => if c.utf8Size ≤ k then c :: takeBytes s (k - c.utf8Size) else []

/-- The last boundary up to an offset. -/
def floorCharBoundary (s : List Char) (k : Nat) : Nat := byteLen (takeBytes s k)

/-- `&s[..k]`; off a boundary it panics. -/
def sliceTo (s : List Char) (k : Nat) : Option (List Char) :=
  if isCharBoundary s k then some (takeBytes s k) else none

/-- `clamp`; reversed bounds panic. -/
def clamp (x lo hi : Nat) : Option Nat := if lo ≤ hi then some (min (max x lo) hi) else none

/-! ## What the model is sent and what it answers -/

def estimateTokens (s : List Char) : Nat := byteLen s / 3

/-- Where `strip_ansi` is in an escape sequence. -/
inductive Escape where
  | text
  | escape
  | csi
  | osc
  | skip
  deriving DecidableEq

def stripAnsiFrom : Escape → List Char → List Char
  | _, [] => []
  | .text, c :: rest =>
    if c = '\x1b' then stripAnsiFrom .escape rest
    else if c = '\n' ∨ c = '\r' ∨ c = '\t' then c :: stripAnsiFrom .text rest
    else if c.toNat < 0x20 ∨ c = '\x7f' then stripAnsiFrom .text rest
    else c :: stripAnsiFrom .text rest
  | .escape, c :: rest =>
    if c = '[' then stripAnsiFrom .csi rest
    else if c = ']' then stripAnsiFrom .osc rest
    else stripAnsiFrom .text rest
  | .csi, c :: rest =>
    if 0x40 ≤ c.toNat ∧ c.toNat ≤ 0x7e then stripAnsiFrom .text rest else stripAnsiFrom .csi rest
  | .osc, c :: rest =>
    if c = '\x07' then stripAnsiFrom .text rest
    else if c = '\x1b' then stripAnsiFrom .skip rest
    else stripAnsiFrom .osc rest
  | .skip, _ :: rest => stripAnsiFrom .text rest

def stripAnsi (s : List Char) : List Char := stripAnsiFrom .text s

/-- `value[name]`: of two members of one name the last, and null where there is none. -/
def member (name : String) : Json → Json
  | .obj members => ((members.filter fun m => m.1 = name).getLast?.map Prod.snd).getD .null
  | _ => .null

/-- `as_str().unwrap_or(default)`. -/
def textOr (default : List Char) : Json → List Char
  | .str s => s.toList
  | _ => default

def textOf (name : String) (entry : Json) : List Char := textOr [] (member name entry)

/-- `as_array().unwrap_or_default()`. -/
def itemsOf : Json → List Json
  | .arr items => items
  | _ => []

def tagsOf (entry : Json) : List (List Char) :=
  (itemsOf (member "tags" entry)).filterMap fun
    | .str s => some s.toList
    | _ => none

/-- What the store makes of an entry that the answer has. -/
inductive Verdict where
  | alreadyHarvested
  | refNotChecked
  | notEmbedded
  | notSearched
  | nearDuplicate
  | addFailed
  | stored
  deriving DecidableEq

/-- An entry as it is handed to the store. -/
structure NoteInput where
  kind : List Char
  title : List Char
  body : List Char
  tags : List (List Char)
  sourceRef : List Char
  deriving DecidableEq

/-- What is outside the loop: the configured context length, the JSON parser, the model's answer to
each request (none where the call fails) and the store's verdict on each entry of it. -/
structure World where
  contextLength : Nat
  parse : List Char → Option Json
  answers : Nat → Option (List Char)
  verdicts : Nat → Nat → Verdict

/-! ## The loop -/

/-- What one copy of the loop has of its own. -/
structure Source (α : Type) where
  system : List Char
  /-- The request in front of its items. -/
  prompt : List Char
  /-- One item in a batch of some length, under a context length. -/
  render : (contextLength batchLen : Nat) → α → List Char
  outputPerItem : Nat
  leastOutput : Nat
  /-- The field that names an item. -/
  keyField : String
  kindOf : Json → List Char
  /-- An entry that is left out because of its body. -/
  leavesOut : List Char → Bool
  /-- What an entry with a key is stored under, and the part of it that is printed. -/
  sourceRef : List α → List Char → List Char
  printed : List α → List Char → List Char

variable {α : Type}

/-- What is between two items of a request. -/
def itemSeparator : List Char := "\n\n---\n\n".toList

namespace Source

variable (src : Source α) (w : World)

def userText (batch : List α) : List Char :=
  src.prompt
    ++ itemSeparator.intercalate (batch.map (src.render w.contextLength batch.length))

def inputTokens (batch : List α) : Nat :=
  estimateTokens src.system + estimateTokens (src.userText w batch)

def outputBudget (n : Nat) : Option Nat :=
  clamp (n * src.outputPerItem) src.leastOutput (w.contextLength / 2)

/-- A batch whose request and answer do not fit the context. -/
def oversized (batch : List α) : Bool :=
  (src.outputBudget w batch.length).any fun out => w.contextLength < src.inputTokens w batch + out

structure Request (α : Type) where
  batch : List α
  user : List Char
  maxTokens : Nat

/-- An entry that was stored, with the batch and the key it was stored for. -/
structure Stored (α : Type) where
  batch : List α
  key : List Char
  note : NoteInput

def noteOf (batch : List α) (entry : Json) : NoteInput where
  kind := src.kindOf entry
  title := textOf "title" entry
  body := textOf "body" entry
  tags := tagsOf entry
  sourceRef := src.sourceRef batch (textOf src.keyField entry)

/-- The entry passes the loop's own check and everything that the store is asked for. -/
def accepts (i j : Nat) (entry : Json) : Bool :=
  !src.leavesOut (textOf "body" entry) && w.verdicts i j = .stored

/-- The part of an entry's name that is printed when it is stored is cut at eight bytes. -/
def cutsName (batch : List α) (entry : Json) : Bool :=
  let name := src.printed batch (textOf src.keyField entry)
  (sliceTo name (min (byteLen name) 8)).isSome

/-- The entries of an answer from the `j`th on: what is stored, and whether it ends in a panic. -/
def storeEntries (i : Nat) (batch : List α) : Nat → List Json → List (Stored α) × Bool
  | _, [] => ([], false)
  | j, entry :: rest =>
    if src.accepts w i j entry then
      let here : Stored α := ⟨batch, textOf src.keyField entry, src.noteOf batch entry⟩
      if src.cutsName batch entry then
        let r := storeEntries i batch (j + 1) rest
        (here :: r.1, r.2)
      else ([here], true)
    else storeEntries i batch (j + 1) rest

/-- What becomes of the answer to the `i`th request. -/
def handleAnswer (i : Nat) (batch : List α) : List (Stored α) × Bool :=
  match w.answers i with
  | none => ([], false)
  | some raw =>
    let rawJson := stripAnsi raw
    match w.parse rawJson with
    | none => ([], (sliceTo rawJson (min (byteLen rawJson) 200)).isNone)
    | some parsed => src.storeEntries w i batch 0 (itemsOf (member "entries" parsed))

structure State (α : Type) where
  work : List (List α)
  requests : List (Request α)
  stored : List (Stored α)
  panicked : Bool

/-- One turn of the loop. -/
def step (s : State α) : State α :=
  if s.panicked then s
  else
    match s.work with
    | [] => s
    | batch :: rest =>
      match src.outputBudget w batch.length with
      | none => { s with work := rest, panicked := true }
      | some out =>
        let input := src.inputTokens w batch
        if w.contextLength < input + out ∧ 1 < batch.length then
          { s with
            work := batch.take (batch.length / 2) :: batch.drop (batch.length / 2) :: rest }
        else
          let r := src.handleAnswer w s.requests.length batch
          { work := rest
            requests := s.requests
              ++ [(⟨batch, src.userText w batch, max (min (w.contextLength - input) out) 128⟩ :
                Request α)]
            stored := s.stored ++ r.1
            panicked := r.2 }

/-- The loop before its first turn. -/
def start (batchSize : Nat) (items : List α) : State α :=
  ⟨SplitQueue.chunks (max batchSize 1) items, [], [], false⟩

/-- The loop after `n` turns. -/
def run (batchSize : Nat) (items : List α) (n : Nat) : State α :=
  Runs.after (fun s (_ : Unit) => src.step w s) (start batchSize items) (fun _ => ()) n

end Source

/-! ## The three copies -/

/-- The commit text that a request has, its body cut at a character. -/
def commitText (maxBody : Nat) (c : Commit) : List Char :=
  if c.body = [] then "COMMIT ".toList ++ c.sha ++ '\n' :: c.subject
  else
    "COMMIT ".toList ++ c.sha ++ '\n' :: c.subject ++ "\n\n".toList
      ++ takeBytes c.body (floorCharBoundary c.body maxBody)

/-- The first commit of the batch whose id starts with the answer's, or else the answer's. -/
def fullSha (batch : List Commit) (shaShort : List Char) : List Char :=
  ((batch.find? fun c => shaShort.isPrefixOf c.sha).map Commit.sha).getD shaShort

def gitSystem : List Char :=
  ("You help build a project memory store from git history. " ++
    "Respond ONLY with valid JSON matching the provided schema. No other text.").toList

def gitPrompt : List Char :=
  ("Review these git commit messages. Identify commits that represent:\n" ++
    "- \"decision\": A significant architectural or design choice and reasoning\n" ++
    "- \"context\": Background about requirements, constraints, or project goals\n" ++
    "- \"requirement\": A hard constraint the codebase must satisfy\n" ++
    "- \"note\": A surprising or non-obvious discovery\n\n" ++
    "SKIP — return NO entry for:\n" ++
    "- Formatting/linting: \"ran prettier\", \"cargo fmt\", \"apply eslint\", " ++
    "\"gofmt\", \"fix whitespace\", \"code style\", \"apply linting\"\n" ++
    "- Version/release: \"bump version\", \"release v1.2.3\", \"update changelog\"\n" ++
    "- Merge commits: subjects starting with \"Merge branch\" or \"Merge pull request\"\n" ++
    "- Trivial fixes: typos, comment wording, variable renames with no design significance\n" ++
    "- Dependency bumps that reveal no architectural constraint\n\n" ++
    "Only create an entry if the commit reveals WHY something was designed a certain way, " ++
    "establishes a hard constraint, or captures non-obvious knowledge a future developer needs.\n\n" ++
    "For each significant commit write: sha (first 8 chars), kind, title " ++
    "(one sentence, past tense for decisions), body (include why, " ++
    "what alternatives were considered), tags (2-4 keywords).\n\n" ++
    "Commits:\n").toList

/-- A batch of one has its body cut to what the context leaves. -/
def gitMaxBody (contextLength batchLen : Nat) : Nat :=
  if batchLen = 1 then
    let overhead := estimateTokens gitSystem + 600
    let availableChars := (contextLength - overhead) * 3
    min (max availableChars 120) 400
  else 400

/-- The loop of `memory_harvest_git`. -/
def memoryHarvestGit : Source Commit where
  system := gitSystem
  prompt := gitPrompt
  render contextLength batchLen := commitText (gitMaxBody contextLength batchLen)
  outputPerItem := 400
  leastOutput := 256
  keyField := "sha"
  kindOf entry := textOr "note".toList (member "kind" entry)
  leavesOut _ := false
  sourceRef := fullSha
  printed := fullSha

def failuresPrompt : List Char :=
  ("Review these failure-signal git commits (reverts, bug fixes, regressions, crashes).\n" ++
    "For EACH commit, extract an antipattern rule: what went wrong and what should be " ++
    "avoided in future.\n\n" ++
    "Write each entry as:\n" ++
    "- title: a short imperative rule starting with \"Never\", \"Avoid\", or \"Don't\" " ++
    "(e.g. \"Never call block_on inside an async context\")\n" ++
    "- body: explain what was wrong, what broke, and what to do instead. Include " ++
    "context so a future developer understands the failure mode.\n" ++
    "- tags: 2-4 keywords\n\n" ++
    "SKIP a commit if it is too vague to yield a useful rule (e.g. \"fix typo\").\n" ++
    "Return one entry per meaningful failure pattern found.\n\n" ++
    "Commits:\n").toList

/-- The loop of `memory_harvest_failures`. -/
def memoryHarvestFailures : Source Commit where
  system := gitSystem
  prompt := failuresPrompt
  render _ _ := commitText 400
  outputPerItem := 400
  leastOutput := 256
  keyField := "sha"
  kindOf _ := "antipattern".toList
  leavesOut _ := false
  sourceRef := fullSha
  printed := fullSha

structure NewSession where
  sessionId : List Char
  combinedText : List Char
  deriving DecidableEq

def claudeSystem : List Char :=
  ("You help build a project memory store from Claude Code conversation history. " ++
    "Respond ONLY with valid JSON matching the provided schema. No other text.").toList

def claudePrompt : List Char :=
  ("Review these Claude Code conversation turns. Identify turns that represent:\n" ++
    "- \"decision\": A significant architectural or design choice and reasoning\n" ++
    "- \"context\": Background about requirements, constraints, or project goals\n" ++
    "- \"requirement\": A hard constraint the codebase must satisfy\n" ++
    "- \"note\": A surprising or non-obvious discovery\n\n" ++
    "SKIP — return NO entry for:\n" ++
    "- Routine coding questions with no design significance\n" ++
    "- Trivial edits, typos, comment wording\n" ++
    "- Questions about syntax or standard library usage\n" ++
    "- Conversations with no lasting architectural insight\n\n" ++
    "Only create an entry if the conversation reveals WHY something was designed a certain way, " ++
    "establishes a hard constraint, or captures non-obvious knowledge a future developer needs.\n\n" ++
    "For each significant session write: session_id (full UUID), kind, title " ++
    "(one sentence, past tense for decisions), body (include why, " ++
    "what alternatives were considered), tags (2-4 keywords).\n\n" ++
    "Sessions:\n").toList

/-- `claude-code:` and the session. -/
def sessionRef (sessionId : List Char) : List Char := "claude-code:".toList ++ sessionId

/-- The loop of `harvest_claude_code`. -/
def harvestClaudeCode (containsSecret : List Char → Bool) : Source NewSession where
  system := claudeSystem
  prompt := claudePrompt
  render _ _ s := "SESSION ".toList ++ s.sessionId ++ '\n' :: s.combinedText
  outputPerItem := 1200
  leastOutput := 512
  keyField := "session_id"
  kindOf entry := textOr "note".toList (member "kind" entry)
  leavesOut := containsSecret
  sourceRef _ sessionId := sessionRef sessionId
  printed _ sessionId := sessionId

/-- The commits that are left to analyse: not harvested, not routine and without a secret. -/
def gitCommits (isRoutineSubject containsSecret : List Char → Bool) (knownShas : List (List Char))
    (commits : List Commit) : List Commit :=
  (dropCommitsWithSecrets containsSecret
    ((commits.filter fun c => !knownShas.contains c.sha).filter fun c => !isRoutineSubject c.subject)).1

/-- The commits whose subject tells of a failure, not harvested and without a secret. -/
def failureCommits (isFailureSubject containsSecret : List Char → Bool)
    (knownShas : List (List Char)) (commits : List Commit) : List Commit :=
  (dropCommitsWithSecrets containsSecret
    ((commits.filter fun c => isFailureSubject c.subject).filter fun c => !knownShas.contains c.sha)).1

end Harvest
end Inkentry
