/-
  Inkentry.ServerKeys

  The bearer of a request.  One entry of the secret store holds the keys of all
  servers, by origin; the cloud session has a token of its own, issued for one
  origin.  A request is answered from the one or the other by its origin alone.

  What a URL's origin is comes from the URL parser, a parameter here: a text or
  the parser's error.

  `routing_law`: over any history, an origin other than the token's gets the key
  last set for it, whatever was done under others, and the token's own origin
  never gets a key.
-/

import Inkentry.Lib.SortedMap
import Inkentry.Lib.TextLines
import Inkentry.OrgTokens

namespace Inkentry
namespace ServerKeys

open OrgTokens (AuthTokens)

variable {ε : Type*} (normalizeOrigin : String → Except ε String)

/-! ## The code -/

/-- The payload of the entry: the key of each origin. -/
abbrev KeyMap := SortedMap String String

def readMap (entry : Option KeyMap) : KeyMap := entry.getD .empty

/-- What the entry becomes; an empty map deletes it. -/
def writeMap (map : KeyMap) : Option KeyMap := if map.entries = [] then none else some map

def serverKeyForOrigin (origin : String) (entry : Option KeyMap) : Option String :=
  (readMap entry).get origin

/-- The token is for this origin; a session that records no origin is for none. -/
def issuedFor (a : AuthTokens) (origin : String) : Bool :=
  !(TextLines.trim a.cloudOrigin.toList).isEmpty && origin = a.cloudOrigin

/-- The bearer; `env` is the one the environment gives. -/
def bearerFor (env : Option String) (auth : Option AuthTokens) (serverUrl : String)
    (entry : Option KeyMap) : Except ε (Option String) :=
  match env with
  | some v => .ok (some v)
  | none => do
    let origin ← normalizeOrigin serverUrl
    match auth.filter fun a => issuedFor a origin with
    | some a => return (some a.accessToken).filter fun token => !token.isEmpty
    | none => return serverKeyForOrigin origin entry

/-- The origin the key was stored under, and the entry. -/
def setKeyForOrigin (serverUrl key : String) (entry : Option KeyMap) :
    Except ε (String × Option KeyMap) := do
  let origin ← normalizeOrigin serverUrl
  return (origin, writeMap ((readMap entry).insert origin key))

structure OriginRemoval where
  origin : String
  removed : Bool
  deriving DecidableEq

def clearOrigin (serverUrl : String) (entry : Option KeyMap) :
    Except ε (OriginRemoval × Option KeyMap) := do
  let origin ← normalizeOrigin serverUrl
  let removed := ((readMap entry).get origin).isSome
  return (⟨origin, removed⟩, if removed then writeMap ((readMap entry).remove origin) else entry)

/-- How many origins had a key, and no entry. -/
def clearAll (entry : Option KeyMap) : Nat × Option KeyMap := ((readMap entry).keys.length, none)

/-! ## Histories -/

inductive Op where
  | setKeyForOrigin (serverUrl key : String)
  | clearOrigin (serverUrl : String)
  | clearAll

/-- The entry after an operation; one that fails leaves it. -/
def step (entry : Option KeyMap) : Op → Option KeyMap
  | .setKeyForOrigin serverUrl key =>
    match setKeyForOrigin normalizeOrigin serverUrl key entry with
    | .ok (_, entry') => entry'
    | .error _ => entry
  | .clearOrigin serverUrl =>
    match clearOrigin normalizeOrigin serverUrl entry with
    | .ok (_, entry') => entry'
    | .error _ => entry
  | .clearAll => (clearAll entry).2

/-- The entry after a history that starts without one. -/
def entryAfter (ops : List Op) : Option KeyMap := ops.foldl (step normalizeOrigin) none

/-- The operation sets or clears the key of an origin. -/
def Op.Touches (origin : String) : Op → Prop
  | .setKeyForOrigin serverUrl _ | .clearOrigin serverUrl => normalizeOrigin serverUrl = .ok origin
  | .clearAll => True

instance decidableSameOrigin (origin serverUrl : String) :
    Decidable (normalizeOrigin serverUrl = .ok origin) :=
  match h : normalizeOrigin serverUrl with
  | .ok o => decidable_of_iff (o = origin) (by simp)
  | .error _ => .isFalse (by simp)

instance (origin : String) (op : Op) : Decidable (op.Touches normalizeOrigin origin) :=
  match op with
  | .setKeyForOrigin serverUrl _ | .clearOrigin serverUrl =>
    decidableSameOrigin normalizeOrigin origin serverUrl
  | .clearAll => .isTrue trivial

/-- The key was set under a URL of the origin, and none was set or cleared there since. -/
def LastSet (ops : List Op) (origin key : String) : Prop :=
  ∃ before serverUrl after, ops = before ++ .setKeyForOrigin serverUrl key :: after
    ∧ normalizeOrigin serverUrl = .ok origin ∧ ∀ op ∈ after, ¬ op.Touches normalizeOrigin origin

/-! ## One operation -/

theorem readMap_writeMap (map : KeyMap) : readMap (writeMap map) = map := by
  unfold writeMap
  split
  case isTrue h =>
    obtain ⟨entries, sorted⟩ := map
    subst h
    rfl
  case isFalse => rfl

variable {normalizeOrigin}

theorem get_step_of_not_touches {op : Op} {origin : String}
    (h : ¬ op.Touches normalizeOrigin origin) (entry : Option KeyMap) :
    (readMap (step normalizeOrigin entry op)).get origin = (readMap entry).get origin := by
  cases op with
  | setKeyForOrigin serverUrl key =>
    simp only [step, setKeyForOrigin]
    cases horigin : normalizeOrigin serverUrl with
    | error e => rfl
    | ok origin' =>
      have hne : origin ≠ origin' := fun heq => h (heq ▸ horigin)
      show (readMap (writeMap _)).get origin = _
      rw [readMap_writeMap, SortedMap.get_insert_of_ne _ _ hne]
  | clearOrigin serverUrl =>
    simp only [step, clearOrigin]
    cases horigin : normalizeOrigin serverUrl with
    | error e => rfl
    | ok origin' =>
      have hne : origin ≠ origin' := fun heq => h (heq ▸ horigin)
      show (readMap (if _ then writeMap _ else entry)).get origin = _
      split
      · rw [readMap_writeMap, SortedMap.get_remove_of_ne _ hne]
      · rfl
  | clearAll => exact absurd trivial h

/-- An operation that touches an origin leaves the key it sets, or none. -/
theorem get_step_of_touches {op : Op} {origin : String} (h : op.Touches normalizeOrigin origin)
    (entry : Option KeyMap) (key : String) :
    (readMap (step normalizeOrigin entry op)).get origin = some key
      ↔ ∃ serverUrl, op = .setKeyForOrigin serverUrl key := by
  cases op with
  | setKeyForOrigin serverUrl key' =>
    have horigin : normalizeOrigin serverUrl = .ok origin := h
    have hentry : step normalizeOrigin entry (.setKeyForOrigin serverUrl key')
        = writeMap ((readMap entry).insert origin key') := by
      simp only [step, setKeyForOrigin, horigin]
      rfl
    rw [hentry, readMap_writeMap, SortedMap.get_insert_self]
    simp
  | clearOrigin serverUrl =>
    have horigin : normalizeOrigin serverUrl = .ok origin := h
    have hnone : (readMap (step normalizeOrigin entry (.clearOrigin serverUrl))).get origin = none := by
      simp only [step, clearOrigin, horigin]
      show (readMap (if _ then writeMap _ else entry)).get origin = none
      split
      case isTrue => rw [readMap_writeMap, SortedMap.get_remove_self]
      case isFalse habsent => simpa using habsent
    simp [hnone]
  | clearAll =>
    have hnone : (readMap (step normalizeOrigin entry .clearAll)).get origin = none := rfl
    simp [hnone]

/-! ## The key of an origin -/

theorem lastSet_concat {ops : List Op} {op : Op} {origin key : String} :
    LastSet normalizeOrigin (ops ++ [op]) origin key ↔
      (op.Touches normalizeOrigin origin ∧ ∃ serverUrl, op = .setKeyForOrigin serverUrl key)
        ∨ ¬ op.Touches normalizeOrigin origin ∧ LastSet normalizeOrigin ops origin key := by
  constructor
  · rintro ⟨before, serverUrl, after, hsplit, horigin, hafter⟩
    rcases List.eq_nil_or_concat after with rfl | ⟨after, last, rfl⟩
    · obtain ⟨-, hop⟩ := List.append_inj' hsplit rfl
      obtain rfl : op = .setKeyForOrigin serverUrl key := by simpa using hop
      exact .inl ⟨horigin, serverUrl, rfl⟩
    · have hsplit' : ops ++ [op]
          = (before ++ .setKeyForOrigin serverUrl key :: after) ++ [last] := by
        rw [hsplit, List.concat_eq_append, List.append_assoc, List.cons_append]
      obtain ⟨hops, hop⟩ := List.append_inj' hsplit' rfl
      obtain rfl : op = last := by simpa using hop
      refine .inr ⟨hafter op (by simp), before, serverUrl, after, hops, horigin, fun o ho => ?_⟩
      exact hafter o (by simp [ho])
  · rintro (⟨htouches, serverUrl, rfl⟩ | ⟨hnot, before, serverUrl, after, rfl, horigin, hafter⟩)
    · exact ⟨ops, serverUrl, [], rfl, htouches, by simp⟩
    · refine ⟨before, serverUrl, after ++ [op], by simp, horigin, fun o ho => ?_⟩
      rcases List.mem_append.mp ho with ho | ho
      · exact hafter o ho
      · rw [List.mem_singleton.mp ho]
        exact hnot

theorem entryAfter_concat (ops : List Op) (op : Op) :
    entryAfter normalizeOrigin (ops ++ [op])
      = step normalizeOrigin (entryAfter normalizeOrigin ops) op := by
  rw [entryAfter, List.foldl_append, List.foldl_cons, List.foldl_nil, ← entryAfter]

theorem get_entryAfter (ops : List Op) (origin key : String) :
    (readMap (entryAfter normalizeOrigin ops)).get origin = some key
      ↔ LastSet normalizeOrigin ops origin key := by
  induction ops using List.reverseRecOn with
  | nil => simp [entryAfter, readMap, LastSet]
  | append_singleton ops op ih =>
    rw [entryAfter_concat, lastSet_concat, ← ih]
    by_cases htouches : op.Touches normalizeOrigin origin
    · rw [get_step_of_touches htouches]
      simp [htouches]
    · rw [get_step_of_not_touches htouches]
      simp [htouches]

theorem lastSet_iff_of_touching {ops ops' : List Op} {origin : String}
    (h : ops.filter (Op.Touches normalizeOrigin origin ·)
      = ops'.filter (Op.Touches normalizeOrigin origin ·)) (key : String) :
    LastSet normalizeOrigin ops origin key ↔ LastSet normalizeOrigin ops' origin key := by
  have hfilter : ∀ l : List Op, LastSet normalizeOrigin l origin key
      ↔ LastSet normalizeOrigin (l.filter (Op.Touches normalizeOrigin origin ·)) origin key := by
    intro l
    induction l using List.reverseRecOn with
    | nil => exact Iff.rfl
    | append_singleton l op ih =>
      rw [List.filter_append, List.filter_singleton, lastSet_concat]
      by_cases htouches : op.Touches normalizeOrigin origin
      · simp [htouches, lastSet_concat]
      · simp [htouches, ← ih]
  rw [hfilter ops, h, ← hfilter ops']

/-! ## Requests -/

variable {serverUrl origin : String} {auth : Option AuthTokens}

/-- The token's own origin gets the token, or nothing when it is blank. -/
theorem bearerFor_of_issuedFor {a : AuthTokens} (horigin : normalizeOrigin serverUrl = .ok origin)
    (ha : a ∈ auth) (hissued : issuedFor a origin) (entry : Option KeyMap) :
    bearerFor normalizeOrigin none auth serverUrl entry
      = .ok (if a.accessToken = "" then none else some a.accessToken) := by
  obtain rfl : auth = some a := ha
  have hfilter : (some a).filter (fun a => issuedFor a origin) = some a := by
    simp [Option.filter, hissued]
  simp only [bearerFor, horigin, bind, Except.bind, hfilter]
  by_cases hblank : a.accessToken = ""
  · simp [hblank, Option.filter, pure, Except.pure]
  · simp [hblank, Option.filter, pure, Except.pure]

theorem bearerFor_of_not_issuedFor (horigin : normalizeOrigin serverUrl = .ok origin)
    (hnot : ∀ a ∈ auth, ¬ issuedFor a origin) (entry : Option KeyMap) :
    bearerFor normalizeOrigin none auth serverUrl entry = .ok ((readMap entry).get origin) := by
  have hfilter : auth.filter (fun a => issuedFor a origin) = none := by
    rw [Option.filter_eq_none_iff]
    exact hnot
  simp only [bearerFor, horigin, bind, Except.bind, hfilter]
  rfl

variable (normalizeOrigin)

/-- Over every history and for every session: the token's own origin gets the token, or
    nothing when it is blank, and no key; every other origin gets the key last set for it
    and not cleared since, which no operation under another origin changes; and a removal
    is reported when there was such a key. -/
theorem routing_law (ops : List Op) (auth : Option AuthTokens) {serverUrl origin : String}
    (horigin : normalizeOrigin serverUrl = .ok origin) :
    (∀ a ∈ auth, issuedFor a origin →
      bearerFor normalizeOrigin none auth serverUrl (entryAfter normalizeOrigin ops)
        = .ok (if a.accessToken = "" then none else some a.accessToken))
    ∧ ((∀ a ∈ auth, ¬ issuedFor a origin) → ∃ bearer,
      bearerFor normalizeOrigin none auth serverUrl (entryAfter normalizeOrigin ops) = .ok bearer
        ∧ ∀ key, bearer = some key ↔ LastSet normalizeOrigin ops origin key)
    ∧ (∀ ops', ops'.filter (Op.Touches normalizeOrigin origin ·)
        = ops.filter (Op.Touches normalizeOrigin origin ·) →
      bearerFor normalizeOrigin none auth serverUrl (entryAfter normalizeOrigin ops')
        = bearerFor normalizeOrigin none auth serverUrl (entryAfter normalizeOrigin ops))
    ∧ ∃ removed entry', clearOrigin normalizeOrigin serverUrl (entryAfter normalizeOrigin ops)
        = .ok (⟨origin, removed⟩, entry')
      ∧ (removed ↔ ∃ key, LastSet normalizeOrigin ops origin key) := by
  refine ⟨fun a ha hissued => bearerFor_of_issuedFor horigin ha hissued _, fun hnot => ?_,
    fun ops' hsame => ?_, ?_⟩
  · exact ⟨_, bearerFor_of_not_issuedFor horigin hnot _, get_entryAfter ops origin⟩
  -- a session for the origin comes before any key
  · by_cases hissued : ∃ a ∈ auth, issuedFor a origin
    · obtain ⟨a, ha, hissued⟩ := hissued
      rw [bearerFor_of_issuedFor horigin ha hissued, bearerFor_of_issuedFor horigin ha hissued]
    · have hnot : ∀ a ∈ auth, ¬ issuedFor a origin := fun a ha h => hissued ⟨a, ha, h⟩
      rw [bearerFor_of_not_issuedFor horigin hnot, bearerFor_of_not_issuedFor horigin hnot]
      refine congrArg Except.ok (Option.ext fun key => ?_)
      rw [get_entryAfter, get_entryAfter]
      exact lastSet_iff_of_touching hsame key
  · have hremoved : ((readMap (entryAfter normalizeOrigin ops)).get origin).isSome
        ↔ ∃ key, LastSet normalizeOrigin ops origin key := by
      rw [Option.isSome_iff_exists]
      exact exists_congr fun key => get_entryAfter ops origin key
    refine ⟨((readMap (entryAfter normalizeOrigin ops)).get origin).isSome, ?_⟩
    simp only [clearOrigin, horigin, bind, Except.bind, pure, Except.pure]
    exact ⟨_, rfl, hremoved⟩

/-! ### A key for the origin of a blank session -/

/-- The origins of the URLs of the cloud and of one team server. -/
def sampleOrigin : String → Except String String
  | "https://api.inkentry.com/" => .ok "https://api.inkentry.com"
  | "https://TEAM.example/" => .ok "https://team.example"
  | _ => .error "not a valid URL"

/-- A session whose access token is blank. -/
def blankSession : AuthTokens := ⟨"", "rt", 4000000000, "org_1", "https://api.inkentry.com"⟩

/-- The bearer is the token, to its own origin, or else the key last set for the origin. -/
def TokenOrKey (ops : List Op) (auth : Option AuthTokens) (serverUrl origin : String) : Prop :=
  ∃ bearer, bearerFor normalizeOrigin none auth serverUrl (entryAfter normalizeOrigin ops)
      = .ok bearer
    ∧ ((∃ a ∈ auth, a.cloudOrigin = origin ∧ bearer = some a.accessToken)
      ∨ ∀ key, bearer = some key ↔ LastSet normalizeOrigin ops origin key)

theorem routing_law_of_team_key :
    sampleOrigin "https://TEAM.example/" = .ok "https://team.example"
      ∧ ∃ bearer, bearerFor sampleOrigin none (some blankSession) "https://TEAM.example/"
          (entryAfter sampleOrigin [.setKeyForOrigin "https://TEAM.example/" "sk-team"]) = .ok bearer
        ∧ ∀ key, bearer = some key
          ↔ LastSet sampleOrigin [.setKeyForOrigin "https://TEAM.example/" "sk-team"]
            "https://team.example" key :=
  ⟨rfl, (routing_law sampleOrigin [.setKeyForOrigin "https://TEAM.example/" "sk-team"]
    (some blankSession) rfl).2.1 (by decide +kernel)⟩

/-- A key set for the cloud is not sent while a blank session is on record. -/
theorem not_tokenOrKey_of_blank_session :
    ¬ TokenOrKey sampleOrigin
      [.setKeyForOrigin "https://api.inkentry.com/" "sk-cloud"] (some blankSession)
      "https://api.inkentry.com/" "https://api.inkentry.com" := by
  rintro ⟨bearer, hbearer, h⟩
  have hnone : bearerFor sampleOrigin none (some blankSession) "https://api.inkentry.com/"
      (entryAfter sampleOrigin [.setKeyForOrigin "https://api.inkentry.com/" "sk-cloud"])
        = .ok none := by
    decide +kernel
  obtain rfl : none = bearer := Except.ok.inj (hnone.symm.trans hbearer)
  rcases h with ⟨a, -, -, ha⟩ | hkey
  · exact absurd ha (by simp)
  · have hset : LastSet sampleOrigin [.setKeyForOrigin "https://api.inkentry.com/" "sk-cloud"]
        "https://api.inkentry.com" "sk-cloud" := ⟨[], _, [], rfl, rfl, by simp⟩
    exact absurd ((hkey "sk-cloud").mpr hset) (by simp)

end ServerKeys
end Inkentry
