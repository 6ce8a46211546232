/-
  Inkentry.OrgTokens

  The per-organization session cache.  All organizations share one entry of the
  secret store; every operation reads the entry, edits one organization's slot
  or the active pointer, and writes the entry back whole.  Nothing holds the
  entry between a read and a write.

  `noLostSession` says when that is harmless: nothing else was written in
  between, and a refreshed session is not written back after a logout.
-/

import Mathlib.Data.List.Permutation
import Mathlib.Data.String.Basic
import Inkentry.Lib.SharedCell
import Inkentry.Lib.SortedMap

namespace Inkentry
namespace OrgTokens

open Runs SharedCell

/-! ## The cache -/

structure AuthTokens where
  accessToken : String
  refreshToken : String
  expiresAt : Int
  orgId : String
  cloudOrigin : String
  deriving DecidableEq

/-- One organization's session. -/
structure OrgSession where
  accessToken : String
  refreshToken : String
  expiresAt : Int
  cloudOrigin : String
  slug : Option String
  deriving DecidableEq

/-- The payload of the entry. -/
structure Cache where
  active : Option String
  orgs : SortedMap String OrgSession
  deriving DecidableEq

def Cache.empty : Cache := ⟨none, .empty⟩

/-- What is read of the entry; no entry is an empty cache. -/
def readCache (entry : Option Cache) : Cache := entry.getD .empty

/-- What the entry becomes; an empty cache deletes it. -/
def writeCache (cache : Cache) : Option Cache :=
  if cache.active = none ∧ cache.orgs.entries = [] then none else some cache

def sessionFrom (tokens : AuthTokens) (slug : Option String) : OrgSession where
  accessToken := tokens.accessToken
  refreshToken := tokens.refreshToken
  expiresAt := tokens.expiresAt
  cloudOrigin := tokens.cloudOrigin
  slug := slug

/-- The key an identifier names: itself, or the first whose session has it as slug. -/
def keyFor (cache : Cache) (ident : String) : Option String :=
  if (cache.orgs.get ident).isSome then some ident
  else (cache.orgs.entries.find? fun p => p.2.slug = some ident).map Prod.fst

/-! ## The operations -/

/-- The slug stored for an organization. -/
def storedSlug (cache : Cache) (orgId : String) : Option String :=
  (cache.orgs.get orgId).bind OrgSession.slug

def setActive (tokens : AuthTokens) (slug : Option String) (cache : Cache) : Cache where
  active := some tokens.orgId
  orgs := cache.orgs.insert tokens.orgId
    (sessionFrom tokens (slug.or (storedSlug cache tokens.orgId)))

/-- The write-back of a refresh. -/
def updateInPlace (tokens : AuthTokens) (cache : Cache) : Cache :=
  { cache with
    orgs := cache.orgs.insert tokens.orgId (sessionFrom tokens (storedSlug cache tokens.orgId)) }

def setActiveLocal (ident : String) (cache : Cache) : Option Cache :=
  (keyFor cache ident).map fun key => { cache with active := some key }

def clearOrg (ident : String) (cache : Cache) : Option Cache :=
  (keyFor cache ident).map fun key =>
    { active := if cache.active = some key then none else cache.active
      orgs := cache.orgs.remove key }

inductive Op where
  | setActive (tokens : AuthTokens) (slug : Option String)
  | updateInPlace (tokens : AuthTokens)
  | setActiveLocal (ident : String)
  | clearOrg (ident : String)
  | clearAll
  deriving DecidableEq

/-- What an operation writes for the entry it read; `none` when it writes nothing. -/
def Op.apply : Op → Option Cache → Option (Option Cache)
  | .setActive tokens slug, entry =>
    some (writeCache (OrgTokens.setActive tokens slug (readCache entry)))
  | .updateInPlace tokens, entry =>
    some (writeCache (OrgTokens.updateInPlace tokens (readCache entry)))
  | .setActiveLocal ident, entry =>
    (OrgTokens.setActiveLocal ident (readCache entry)).map writeCache
  | .clearOrg ident, entry => (OrgTokens.clearOrg ident (readCache entry)).map writeCache
  | .clearAll, _ => some none

/-! ## Logouts -/

/-- The entry, and the organizations logged out of and not logged in to since. -/
structure Ledger where
  entry : Option Cache
  loggedOut : List String

/-- What one completed operation does to the ledger. -/
def Ledger.complete (l : Ledger) (op : Op) : Ledger where
  entry := (op.apply l.entry).getD l.entry
  loggedOut :=
    match op with
    | .setActive tokens _ => l.loggedOut.filter fun org => org ≠ tokens.orgId
    | .updateInPlace _ | .setActiveLocal _ => l.loggedOut
    | .clearOrg ident => l.loggedOut ++ (keyFor (readCache l.entry) ident).toList
    | .clearAll => l.loggedOut ++ (readCache l.entry).orgs.keys

def ledger (entry : Option Cache) (ops : List Op) : Ledger := ops.foldl Ledger.complete ⟨entry, []⟩

/-! ## What a run should keep -/

variable {ι : Type*}
variable {w : World ι (Option Cache) Op}
variable {start : Option Cache}

/-- The entry is what the completed operations leave in some order, each in one piece,
    and no organization that was logged out of has a session. -/
structure NoLostSession (start : Option Cache) (w : World ι (Option Cache) Op) : Prop where
  serial : ∃ order, order.Perm w.completed ∧ w.value = SharedCell.serial Op.apply start order
  loggedOut : ∀ org ∈ (ledger start w.completed).loggedOut, (readCache w.value).orgs.get org = none

/-- The organization a refresh writes back to. -/
def Op.refreshes : Op → Option String
  | .updateInPlace tokens => some tokens.orgId
  | _ => none

/-- A write finds the entry as the operation read it, or clears it; and a refresh is not
    written back to an organization that was logged out of. -/
def Undisturbed (start : Option Cache) (w : World ι (Option Cache) Op) : Label ι Op → Prop
  | .write i => ∀ p ∈ w.pending i, (p.2 = w.value ∨ p.1 = .clearAll)
      ∧ ∀ org ∈ p.1.refreshes, org ∉ (ledger start w.completed).loggedOut
  | .read .. | .fail _ => True

instance (start : Option Cache) (w : World ι (Option Cache) Op) (label : Label ι Op) :
    Decidable (Undisturbed start w label) := by
  unfold Undisturbed
  split <;> infer_instance

theorem Undisturbed.current {label : Label ι Op}
    (h : Undisturbed start w label) : Current Op.apply w label := by
  cases label with
  | read i op => trivial
  | write i =>
    intro p hp
    rcases (h p hp).1 with heq | hclear
    · exact .inl heq
    · refine .inr fun v v' => ?_
      rw [hclear]
      rfl
  | fail i => trivial

/-! ## One operation -/

theorem readCache_writeCache (cache : Cache) : readCache (writeCache cache) = cache := by
  unfold writeCache
  split
  case isTrue h =>
    obtain ⟨active, entries, sorted⟩ := cache
    obtain ⟨rfl, rfl⟩ := h
    rfl
  case isFalse => rfl

theorem ledger_concat (entry : Option Cache) (ops : List Op) (op : Op) :
    ledger entry (ops ++ [op]) = (ledger entry ops).complete op := by
  simp [ledger]

theorem ledger_entry (entry : Option Cache) (ops : List Op) :
    (ledger entry ops).entry = SharedCell.serial Op.apply entry ops := by
  induction ops using List.reverseRecOn with
  | nil => rfl
  | append_singleton ops op ih =>
    rw [ledger_concat, serial_concat, ← ih]
    rfl

/-- No organization that was logged out of has a session. -/
def Ledger.Kept (l : Ledger) : Prop :=
  ∀ org ∈ l.loggedOut, (readCache l.entry).orgs.get org = none

/-- A logout takes the session away, and only a login, or a refresh that is written back
    to an organization logged out of, brings one back. -/
theorem Ledger.Kept.complete {l : Ledger} (h : l.Kept) {op : Op}
    (hrefresh : ∀ org ∈ op.refreshes, org ∉ l.loggedOut) : (l.complete op).Kept := by
  intro org horg
  cases op with
  | setActive tokens slug =>
    obtain ⟨hmem, hne⟩ := List.mem_filter.mp horg
    show (readCache (writeCache (setActive tokens slug (readCache l.entry)))).orgs.get org = none
    rw [readCache_writeCache]
    exact (SortedMap.get_insert_of_ne _ _ (by simpa using hne)).trans (h org hmem)
  -- a refresh writes its own slot, and by hypothesis that organization is logged in
  | updateInPlace tokens =>
    have hne : org ≠ tokens.orgId := fun heq => hrefresh tokens.orgId rfl (heq ▸ horg)
    show (readCache (writeCache (updateInPlace tokens (readCache l.entry)))).orgs.get org = none
    rw [readCache_writeCache]
    exact (SortedMap.get_insert_of_ne _ _ hne).trans (h org horg)
  | setActiveLocal ident =>
    show (readCache (((setActiveLocal ident (readCache l.entry)).map writeCache).getD
      l.entry)).orgs.get org = none
    unfold setActiveLocal
    cases keyFor (readCache l.entry) ident with
    | none => exact h org horg
    | some key =>
      show (readCache (writeCache _)).orgs.get org = none
      rw [readCache_writeCache]
      exact h org horg
  -- the organizations logged out are the old ones and the one the identifier finds
  | clearOrg ident =>
    have horg' : org ∈ l.loggedOut ++ (keyFor (readCache l.entry) ident).toList := horg
    show (readCache (((clearOrg ident (readCache l.entry)).map writeCache).getD
      l.entry)).orgs.get org = none
    unfold clearOrg
    cases hkey : keyFor (readCache l.entry) ident with
    | none =>
      rw [hkey] at horg'
      exact h org (by simpa using horg')
    | some key =>
      rw [hkey] at horg'
      show (readCache (writeCache _)).orgs.get org = none
      rw [readCache_writeCache]
      rcases List.mem_append.mp horg' with hold | hnew
      · exact SortedMap.get_remove_eq_none key (h org hold)
      · rw [List.mem_singleton.mp hnew]
        exact SortedMap.get_remove_self _ key
  | clearAll => rfl

/-! ## Runs -/

variable [DecidableEq ι]

/-- What an undisturbed run keeps: the entry is serial in the order of completion. -/
structure Ordered (start : Option Cache) (w : World ι (Option Cache) Op) : Prop where
  value : w.value = SharedCell.serial Op.apply start w.completed
  kept : (ledger start w.completed).Kept

theorem Ordered.noLostSession (h : Ordered start w) : NoLostSession start w where
  serial := ⟨w.completed, .refl _, h.value⟩
  loggedOut := by
    intro org horg
    rw [h.value, ← ledger_entry]
    exact h.kept org horg

theorem Ordered.step {label : Label ι Op} (h : Ordered start w)
    (hu : Undisturbed start w label) : Ordered start (SharedCell.step Op.apply w label) := by
  refine ⟨value_eq_serial Op.apply h.value hu.current, ?_⟩
  rcases step_cases Op.apply hu.current with ⟨-, hsame⟩ | ⟨op, -, hcompleted, hlabel⟩
  · rw [hsame]
    exact h.kept
  · rw [hcompleted, ledger_concat]
    refine h.kept.complete ?_
    rcases hlabel with ⟨i, -, hnone⟩ | ⟨i, seen, rfl, hpending⟩
    · -- a refresh always writes
      intro org horg
      cases op with
      | updateInPlace tokens => exact absurd hnone (by simp [Op.apply])
      | setActive tokens slug => exact absurd horg (by simp [Op.refreshes])
      | setActiveLocal ident => exact absurd horg (by simp [Op.refreshes])
      | clearOrg ident => exact absurd horg (by simp [Op.refreshes])
      | clearAll => exact absurd horg (by simp [Op.refreshes])
    · exact (hu (op, seen) hpending).2

/-- In every run of every number of processes whose writes are undisturbed, no session is
    lost and no logout undone, in any state. -/
theorem eachState_noLostSession (start : Option Cache) {labels : List (Label ι Op)}
    (h : EachStep (SharedCell.step Op.apply) (Undisturbed start) (World.start ι Op start) labels) :
    EachState (SharedCell.step Op.apply) (NoLostSession start) (World.start ι Op start) labels := by
  have hstart : Ordered start (World.start ι Op start) :=
    ⟨rfl, fun org horg => absurd horg List.not_mem_nil⟩
  exact (eachState_of_inv (fun w label hw hu => hw.step hu) hstart h).imp _
    fun w hw => hw.noLostSession

/-! ### Two organizations on one machine -/

/-- A session of an organization, and the one a refresh replaces it with. -/
def acmeLogin : AuthTokens := ⟨"access-1", "refresh-1", 1700000000, "org_acme", "https://cloud"⟩

def acmeRefreshed : AuthTokens := ⟨"access-2", "refresh-2", 1700003600, "org_acme", "https://cloud"⟩

def zephyrLogin : AuthTokens := ⟨"access-z", "refresh-z", 1700000000, "org_zephyr", "https://cloud"⟩

/-- One process logs in to both organizations, another refreshes the first, and a third
    logs out of it; each finishes before the next begins. -/
def orderlyRun : List (Label (Fin 3) Op) :=
  [.read 0 (.setActive acmeLogin (some "acme")), .write 0, .read 0 (.setActive zephyrLogin none),
    .write 0, .read 1 (.updateInPlace acmeRefreshed), .write 1, .read 2 (.clearOrg "acme"), .write 2]

theorem eachState_noLostSession_of_orderlyRun :
    EachState (SharedCell.step Op.apply) (NoLostSession none) (World.start (Fin 3) Op none)
      orderlyRun :=
  eachState_noLostSession none (by decide +kernel)

/-- The cache of a user logged in to one organization. -/
def acmeCache : Cache := ⟨some "org_acme", SortedMap.empty.insert "org_acme" (sessionFrom acmeLogin none)⟩

/-- A refresh, and a login elsewhere, that read the entry at the same time. -/
def overlappingRun : List (Label (Fin 2) Op) :=
  [.read 0 (.updateInPlace acmeRefreshed), .read 1 (.setActive zephyrLogin none), .write 0, .write 1]

/-- The login writes back the session whose refresh token has been used. -/
theorem not_noLostSession_of_overlappingRun :
    ¬ NoLostSession (some acmeCache) (run (SharedCell.step Op.apply)
      (World.start (Fin 2) Op (some acmeCache)) overlappingRun) := by
  rintro ⟨⟨order, hperm, hvalue⟩, -⟩
  have hcompleted : (run (SharedCell.step Op.apply) (World.start (Fin 2) Op (some acmeCache))
      overlappingRun).completed = [Op.updateInPlace acmeRefreshed, .setActive zephyrLogin none] := by
    decide +kernel
  rw [hcompleted, List.perm_pair] at hperm
  have hfirst := congrArg (fun entry => (readCache entry).orgs.get "org_acme") hvalue
  rcases hperm with rfl | rfl
  · exact absurd hfirst (by decide +kernel)
  · exact absurd hfirst (by decide +kernel)

end OrgTokens
end Inkentry
