/-
  Inkentry.OrgResolution

  Which organization's session an invocation gets, over any history of the
  operations on the cache, one after another.

  The account of a history says what the cache is for: the tokens last stored
  for each organization, which organization recorded its slug when, and which
  one is active.  The cache keeps no times: of two organizations with one slug
  it takes the one with the lesser id.  `eachState_resolves` says when that is
  the one that recorded the slug last.
-/

import Inkentry.OrgTokens

namespace Inkentry
namespace OrgTokens

open Runs

/-! ## The code -/

def toAuthTokens (orgId : String) (session : OrgSession) : AuthTokens where
  accessToken := session.accessToken
  refreshToken := session.refreshToken
  expiresAt := session.expiresAt
  orgId := orgId
  cloudOrigin := session.cloudOrigin

/-- The organization an invocation resolves to; a pin never falls back to the active one. -/
def resolveOrgIdIn (cache : Cache) (pin : Option String) : Option String :=
  match pin with
  | some ident => keyFor cache ident
  | none => cache.active

def resolveSession (entry : Option Cache) (pin : Option String) : Option AuthTokens :=
  (resolveOrgIdIn (readCache entry) pin).bind fun id =>
    ((readCache entry).orgs.get id).map (toAuthTokens id)

/-- A session of an older client; an organization that has one in the cache keeps it. -/
def migrateLegacy (legacy : AuthTokens) (cache : Cache) : Cache where
  active := cache.active.or (some legacy.orgId)
  orgs :=
    if (cache.orgs.get legacy.orgId).isSome then cache.orgs
    else cache.orgs.insert legacy.orgId (sessionFrom legacy none)

inductive Change where
  | op (op : Op)
  | migrateLegacy (legacy : AuthTokens)
  deriving DecidableEq

/-- The entry after a change. -/
def Change.apply (entry : Option Cache) : Change → Option Cache
  | .op operation => (operation.apply entry).getD entry
  | .migrateLegacy legacy => writeCache (OrgTokens.migrateLegacy legacy (readCache entry))

/-- The organizations whose slots a change may edit. -/
def Change.slots (entry : Option Cache) : Change → List String
  | .op (.setActive tokens _) | .op (.updateInPlace tokens) => [tokens.orgId]
  | .op (.setActiveLocal _) => []
  | .op (.clearOrg ident) => (keyFor (readCache entry) ident).toList
  | .op .clearAll => (readCache entry).orgs.keys
  | .migrateLegacy legacy => [legacy.orgId]

/-! ## The account of a history -/

/-- The entry, and what was done: the tokens last stored for each organization that was
    not logged out of since, the slugs these recorded, the latest first, and the
    organization last made active. -/
structure Account where
  entry : Option Cache
  newest : String → Option AuthTokens
  recorded : List (String × String)
  active : Option String

def Account.start : Account := ⟨none, fun _ => none, [], none⟩

/-- A login records the slug it was made under. -/
def record (orgId : String) (slug : Option String) (recorded : List (String × String)) :
    List (String × String) :=
  match slug with
  | some slug => (orgId, slug) :: recorded.filter fun p => p.1 ≠ orgId
  | none => recorded

/-- A logout of an organization; one that is not cached changes nothing. -/
def Account.forget (w : Account) : Option String → Account
  | some org =>
    { w with
      newest := Function.update w.newest org none
      recorded := w.recorded.filter fun p => p.1 ≠ org
      active := if w.active = some org then none else w.active }
  | none => w

def step (w : Account) (change : Change) : Account :=
  { (match change with
    | .op (.setActive tokens slug) =>
      { w with
        newest := Function.update w.newest tokens.orgId (some tokens)
        recorded := record tokens.orgId slug w.recorded
        active := some tokens.orgId }
    | .op (.updateInPlace tokens) =>
      { w with newest := Function.update w.newest tokens.orgId (some tokens) }
    | .op (.setActiveLocal ident) =>
      { w with active := (keyFor (readCache w.entry) ident).or w.active }
    | .op (.clearOrg ident) => w.forget (keyFor (readCache w.entry) ident)
    | .op .clearAll => Account.start
    | .migrateLegacy legacy =>
      { w with
        newest := Function.update w.newest legacy.orgId
          ((w.newest legacy.orgId).or (some legacy))
        active := w.active.or (some legacy.orgId) }) with
    entry := change.apply w.entry }

/-- The organization that has recorded a slug last. -/
def Account.lastRecorder (w : Account) (slug : String) : Option String :=
  (w.recorded.find? fun p => p.2 = slug).map Prod.fst

/-- What an invocation should get. -/
structure Resolves (w : Account) : Prop where
  active : ∀ org, (readCache w.entry).active = some org → ((readCache w.entry).orgs.get org).isSome
  stored : w.entry = none ↔ (readCache w.entry).orgs.entries = []
  unpinned : resolveSession w.entry none = w.active.bind w.newest
  pinnedId : ∀ ident, (w.newest ident).isSome →
    resolveSession w.entry (some ident) = w.newest ident
  pinnedSlug : ∀ ident, w.newest ident = none →
    resolveSession w.entry (some ident) = (w.lastRecorder ident).bind w.newest
  own : ∀ org, ∀ tokens ∈ w.newest org, tokens.orgId = org

/-- A slug is recorded for an organization whose id is below those of the others that have
    it in the cache. -/
def RecordsBelow (w : Account) : Change → Prop
  | .op (.setActive tokens (some slug)) => ∀ p ∈ (readCache w.entry).orgs.entries,
      p.2.slug = some slug → p.1 = tokens.orgId ∨ tokens.orgId < p.1
  | _ => True

instance (w : Account) (change : Change) : Decidable (RecordsBelow w change) := by
  unfold RecordsBelow
  split <;> infer_instance

/-! ## Slugs on record -/

/-- The slug on record for an organization. -/
def slugIn (recorded : List (String × String)) (org : String) : Option String :=
  (recorded.find? fun p => p.1 = org).map Prod.snd

theorem slugIn_eq_some_iff {recorded : List (String × String)}
    (honce : (recorded.map Prod.fst).Nodup) {org slug : String} :
    slugIn recorded org = some slug ↔ (org, slug) ∈ recorded := by
  induction recorded with
  | nil => simp [slugIn]
  | cons p recorded ih =>
    obtain ⟨hp, hrest⟩ := List.nodup_cons.mp honce
    rw [slugIn, List.find?_cons]
    by_cases heq : p.1 = org
    · have hnot : (org, slug) ∉ recorded := fun h => hp (List.mem_map.mpr ⟨_, h, heq.symm⟩)
      subst heq
      simp [hnot, Prod.ext_iff, eq_comm]
    · have hne : (org, slug) ≠ p := fun h => heq (h ▸ rfl)
      simpa [heq, hne, slugIn] using ih hrest

theorem slugIn_filter_of_ne {org org' : String} (hne : org ≠ org')
    (recorded : List (String × String)) :
    slugIn (recorded.filter fun p => p.1 ≠ org') org = slugIn recorded org := by
  rw [slugIn, slugIn, List.find?_filter]
  refine congrArg (Option.map Prod.snd) (congrArg (List.find? · recorded) (funext fun p => ?_))
  by_cases hp : p.1 = org
  · simp [hp, hne]
  · simp [hp]

theorem slugIn_record_self (org : String) (slug : Option String)
    (recorded : List (String × String)) :
    slugIn (record org slug recorded) org = slug.or (slugIn recorded org) := by
  cases slug with
  | none => rfl
  | some slug => simp [record, slugIn]

theorem slugIn_record_of_ne {org org' : String} (hne : org ≠ org') (slug : Option String)
    (recorded : List (String × String)) :
    slugIn (record org' slug recorded) org = slugIn recorded org := by
  cases slug with
  | none => rfl
  | some slug =>
    rw [record, ← slugIn_filter_of_ne hne recorded, slugIn, slugIn,
      List.find?_cons_of_neg (by simpa using Ne.symm hne)]

theorem once_filter {recorded : List (String × String)} (honce : (recorded.map Prod.fst).Nodup)
    (org : String) : ((recorded.filter fun p => p.1 ≠ org).map Prod.fst).Nodup :=
  honce.sublist (List.filter_sublist.map _)

/-! ## The cache follows the account -/

/-- A cache holds the newest sessions with the slugs on record, and of the organizations
    with one slug the last that recorded it has the least id. -/
structure Tracks (cache : Cache) (newest : String → Option AuthTokens)
    (recorded : List (String × String)) : Prop where
  cached : ∀ org ∈ cache.active, (newest org).isSome
  session : ∀ org, cache.orgs.get org
    = (newest org).map fun tokens => sessionFrom tokens (slugIn recorded org)
  own : ∀ org, ∀ tokens ∈ newest org, tokens.orgId = org
  held : ∀ p ∈ recorded, (newest p.1).isSome
  once : (recorded.map Prod.fst).Nodup
  descending : recorded.Pairwise fun p q => p.2 = q.2 → p.1 < q.1

theorem tracks_empty : Tracks Cache.empty (fun _ => none) [] where
  cached := by simp [Cache.empty]
  session := fun _ => rfl
  own := by simp
  held := by simp
  once := List.nodup_nil
  descending := List.Pairwise.nil

section

variable {cache : Cache} {newest : String → Option AuthTokens} {recorded : List (String × String)}

theorem Tracks.isSome_get (h : Tracks cache newest recorded) (org : String) :
    (cache.orgs.get org).isSome = (newest org).isSome := by
  rw [h.session, Option.isSome_map]

theorem Tracks.slugIn_eq_none (h : Tracks cache newest recorded) {org : String}
    (hnone : newest org = none) : slugIn recorded org = none := by
  rw [slugIn, Option.map_eq_none_iff, List.find?_eq_none]
  intro p hp hfst
  obtain rfl : p.1 = org := by simpa using hfst
  simpa [hnone] using h.held p hp

theorem Tracks.storedSlug_eq (h : Tracks cache newest recorded) (org : String) :
    storedSlug cache org = slugIn recorded org := by
  rw [storedSlug, h.session]
  cases hnewest : newest org with
  | none => exact (h.slugIn_eq_none hnewest).symm
  | some tokens => rfl

/-- The entries with a slug are of the organizations that have it on record. -/
theorem Tracks.mem_recorded (h : Tracks cache newest recorded) {p : String × OrgSession}
    {slug : String} (hp : p ∈ cache.orgs.entries) (hslug : p.2.slug = some slug) :
    (p.1, slug) ∈ recorded := by
  have hget := SortedMap.get_eq_some_iff.mpr (show (p.1, p.2) ∈ _ from hp)
  rw [← slugIn_eq_some_iff h.once, ← h.storedSlug_eq, storedSlug, hget]
  exact hslug

theorem Tracks.exists_entry (h : Tracks cache newest recorded) {org slug : String}
    (hmem : (org, slug) ∈ recorded) :
    ∃ session, (org, session) ∈ cache.orgs.entries ∧ session.slug = some slug := by
  obtain ⟨tokens, htokens⟩ := Option.isSome_iff_exists.mp (h.held _ hmem)
  refine ⟨sessionFrom tokens (some slug), SortedMap.get_eq_some_iff.mp ?_, rfl⟩
  rw [h.session, htokens, (slugIn_eq_some_iff h.once).mpr hmem]
  rfl

/-- A pin names the organization with that id, or the last that recorded it as its slug. -/
theorem Tracks.keyFor_eq (h : Tracks cache newest recorded) (ident : String) :
    keyFor cache ident
      = if (newest ident).isSome then some ident
        else (recorded.find? fun p => p.2 = ident).map Prod.fst := by
  rw [keyFor, h.isSome_get]
  split
  case isTrue => rfl
  case isFalse =>
    cases hfind : recorded.find? fun p => p.2 = ident with
    | none =>
      have hnone : cache.orgs.entries.find? (fun p => p.2.slug = some ident) = none := by
        rw [List.find?_eq_none]
        intro p hp hslug
        have hmem := h.mem_recorded hp (by simpa using hslug)
        exact List.find?_eq_none.mp hfind _ hmem (by simp)
      rw [hnone]
      rfl
    | some last =>
      obtain ⟨hlast, before, after, hsplit, hbefore⟩ := List.find?_eq_some_iff_append.mp hfind
      obtain ⟨org, slug⟩ := last
      obtain rfl : slug = ident := by simpa using hlast
      have hmem : (org, slug) ∈ recorded := by
        rw [hsplit]
        simp
      obtain ⟨session, hentry, hslug⟩ := h.exists_entry hmem
      rw [SortedMap.find?_eq_some_of_least hentry (by simp [hslug])]
      · rfl
      · -- whoever else has the slug recorded it earlier, so its id is greater
        intro p hp hslugp
        have hp' : (p.1, slug) ∈ recorded := h.mem_recorded hp (by simpa using hslugp)
        have hdesc := h.descending
        rw [hsplit] at hp' hdesc
        rcases List.mem_append.mp hp' with hp' | hp'
        · exact absurd (hbefore _ hp') (by simp)
        · rcases List.mem_cons.mp hp' with heq | hp'
          · have hfst : p.1 = org := congrArg Prod.fst heq
            have hgetp := SortedMap.get_eq_some_iff.mpr (show (p.1, p.2) ∈ _ from hp)
            rw [hfst, SortedMap.get_eq_some_iff.mpr hentry] at hgetp
            exact .inl (Prod.ext hfst (Option.some.inj hgetp).symm)
          · exact .inr ((List.pairwise_cons.mp (List.pairwise_append.mp hdesc).2.1).1 _ hp' rfl)

theorem Tracks.isSome_of_keyFor (h : Tracks cache newest recorded) {ident key : String}
    (hkey : keyFor cache ident = some key) : (newest key).isSome := by
  rw [h.keyFor_eq] at hkey
  split at hkey
  case isTrue hsome => rwa [← Option.some.inj hkey]
  case isFalse =>
    obtain ⟨p, hp, rfl⟩ := Option.map_eq_some_iff.mp hkey
    exact h.held p (List.mem_of_find?_eq_some hp)

/-! ## One change -/

variable {active : Option String}

/-- A session stored for an organization, with the slug it is recorded under. -/
theorem Tracks.store (h : Tracks cache newest recorded) (tokens : AuthTokens) (slug : Option String)
    (hactive : active = cache.active ∨ active = some tokens.orgId)
    (hbelow : ∀ s ∈ slug, ∀ p ∈ cache.orgs.entries, p.2.slug = some s → p.1 = tokens.orgId ∨ tokens.orgId < p.1)
    :
    Tracks ⟨active, cache.orgs.insert tokens.orgId
        (sessionFrom tokens (slug.or (storedSlug cache tokens.orgId)))⟩
      (Function.update newest tokens.orgId (some tokens)) (record tokens.orgId slug recorded) where
  cached org horg := by
    by_cases heq : org = tokens.orgId
    · simp [heq]
    · rw [Function.update_of_ne heq]
      rcases hactive with rfl | rfl
      · exact h.cached org horg
      · exact absurd (Option.some.inj horg).symm heq
  session org := by
    by_cases heq : org = tokens.orgId
    · rw [heq, SortedMap.get_insert_self, Function.update_self, slugIn_record_self, h.storedSlug_eq]
      rfl
    · rw [SortedMap.get_insert_of_ne _ _ heq, Function.update_of_ne heq, slugIn_record_of_ne heq]
      exact h.session org
  own org t ht := by
    by_cases heq : org = tokens.orgId
    · rw [heq, Function.update_self] at ht
      rw [heq, ← Option.some.inj ht]
    · rw [Function.update_of_ne heq] at ht
      exact h.own org t ht
  held p hp := by
    by_cases heq : p.1 = tokens.orgId
    · simp [heq]
    · rw [Function.update_of_ne heq]
      cases slug with
      | none => exact h.held p hp
      | some s =>
        rcases List.mem_cons.mp hp with rfl | hp
        · exact absurd rfl heq
        · exact h.held p (List.mem_of_mem_filter hp)
  once := by
    cases slug with
    | none => exact h.once
    | some s =>
      refine List.nodup_cons.mpr ⟨fun hmem => ?_, once_filter h.once tokens.orgId⟩
      obtain ⟨p, hp, hfst⟩ := List.mem_map.mp hmem
      exact absurd hfst (by simpa using List.of_mem_filter hp)
  descending := by
    cases slug with
    | none => exact h.descending
    | some s =>
      refine List.pairwise_cons.mpr ⟨fun q hq hslug => ?_, h.descending.filter _⟩
      -- whoever else has the slug in the cache has a greater id
      have hne : q.1 ≠ tokens.orgId := by simpa using List.of_mem_filter hq
      obtain ⟨session, hentry, hsession⟩ := h.exists_entry
        (show (q.1, q.2) ∈ recorded from List.mem_of_mem_filter hq)
      exact (hbelow s rfl _ hentry (hsession.trans (congrArg some hslug.symm))).resolve_left hne

theorem Tracks.point (h : Tracks cache newest recorded)
    (hcached : ∀ org ∈ active, (newest org).isSome) : Tracks ⟨active, cache.orgs⟩ newest recorded :=
  ⟨hcached, h.session, h.own, h.held, h.once, h.descending⟩

theorem Tracks.remove (h : Tracks cache newest recorded) (org : String) :
    Tracks ⟨if cache.active = some org then none else cache.active, cache.orgs.remove org⟩
      (Function.update newest org none) (recorded.filter fun p => p.1 ≠ org) where
  cached o ho := by
    by_cases hactive : cache.active = some org
    · rw [if_pos hactive] at ho
      exact absurd ho (by simp)
    · rw [if_neg hactive] at ho
      have hne : o ≠ org := fun heq => hactive (heq ▸ ho)
      rw [Function.update_of_ne hne]
      exact h.cached o ho
  session o := by
    by_cases heq : o = org
    · rw [heq, SortedMap.get_remove_self, Function.update_self]
      rfl
    · rw [SortedMap.get_remove_of_ne _ heq, Function.update_of_ne heq, slugIn_filter_of_ne heq]
      exact h.session o
  own o t ht := by
    by_cases heq : o = org
    · rw [heq, Function.update_self] at ht
      exact absurd ht (by simp)
    · rw [Function.update_of_ne heq] at ht
      exact h.own o t ht
  held p hp := by
    have hne : p.1 ≠ org := by simpa using List.of_mem_filter hp
    rw [Function.update_of_ne hne]
    exact h.held p (List.mem_of_mem_filter hp)
  once := once_filter h.once org
  descending := h.descending.filter _

theorem Tracks.migrateLegacy (h : Tracks cache newest recorded) (legacy : AuthTokens) :
    Tracks (migrateLegacy legacy cache)
      (Function.update newest legacy.orgId ((newest legacy.orgId).or (some legacy))) recorded := by
  rw [OrgTokens.migrateLegacy, h.isSome_get]
  have hactive : cache.active.or (some legacy.orgId) = cache.active
      ∨ cache.active.or (some legacy.orgId) = some legacy.orgId := by
    cases cache.active with
    | none => exact .inr rfl
    | some org => exact .inl rfl
  cases hnewest : newest legacy.orgId with
  | some tokens =>
    rw [Option.some_or, ← hnewest, Function.update_eq_self, hnewest, if_pos Option.isSome_some]
    refine h.point fun org horg => ?_
    rcases hactive with heq | heq
    · exact h.cached org (heq ▸ horg)
    · obtain rfl : legacy.orgId = org := Option.some.inj (heq.symm.trans horg)
      simp [hnewest]
  | none =>
    rw [Option.none_or, if_neg (by simp)]
    have hslug : storedSlug cache legacy.orgId = none := by
      rw [h.storedSlug_eq, h.slugIn_eq_none hnewest]
    have hstore := h.store legacy none hactive (by simp)
    rwa [hslug] at hstore

end

/-! ## Every history -/

/-- What holds after every history whose slugs are recorded below those on record. -/
structure Sound (w : Account) : Prop where
  entry : w.entry = writeCache (readCache w.entry)
  active : (readCache w.entry).active = w.active
  tracks : Tracks (readCache w.entry) w.newest w.recorded

theorem sound_start : Sound Account.start := ⟨rfl, rfl, tracks_empty⟩

theorem sound_of_writeCache {cache : Cache} {newest : String → Option AuthTokens}
    {recorded : List (String × String)} (h : Tracks cache newest recorded) {active : Option String}
    (hactive : cache.active = active) : Sound ⟨writeCache cache, newest, recorded, active⟩ := by
  refine ⟨?_, ?_, ?_⟩ <;> simp only [readCache_writeCache]
  · exact hactive
  · exact h

theorem Sound.step {w : Account} (h : Sound w) {change : Change} (hbelow : RecordsBelow w change) :
    Sound (step w change) := by
  -- every change of the cache keeps what is tracked; one that finds no key does nothing
  match change with
  | .op (.setActive tokens slug) =>
    refine sound_of_writeCache (h.tracks.store tokens slug (.inr rfl) fun s hs => ?_) rfl
    obtain rfl : slug = some s := hs
    exact hbelow
  | .op (.updateInPlace tokens) =>
    exact sound_of_writeCache (h.tracks.store tokens none (.inl rfl) (by simp)) h.active
  | .op (.setActiveLocal ident) =>
    cases hkey : keyFor (readCache w.entry) ident with
    | none =>
      have hsame : OrgTokens.step w (.op (.setActiveLocal ident)) = w := by
        simp [OrgTokens.step, Change.apply, Op.apply, setActiveLocal, hkey]
      rwa [hsame]
    | some key =>
      have hmoved : OrgTokens.step w (.op (.setActiveLocal ident))
          = ⟨writeCache ⟨some key, (readCache w.entry).orgs⟩, w.newest, w.recorded, some key⟩ := by
        simp [OrgTokens.step, Change.apply, Op.apply, setActiveLocal, hkey]
      rw [hmoved]
      refine sound_of_writeCache (h.tracks.point fun org horg => ?_) rfl
      obtain rfl : key = org := Option.some.inj horg
      exact h.tracks.isSome_of_keyFor hkey
  | .op (.clearOrg ident) =>
    cases hkey : keyFor (readCache w.entry) ident with
    | none =>
      have hsame : OrgTokens.step w (.op (.clearOrg ident)) = w := by
        simp [OrgTokens.step, Change.apply, Op.apply, clearOrg, Account.forget, hkey]
      rwa [hsame]
    | some key =>
      have hsound := sound_of_writeCache (h.tracks.remove key) rfl
      have hforgot : OrgTokens.step w (.op (.clearOrg ident))
          = ⟨writeCache ⟨if (readCache w.entry).active = some key then none
                else (readCache w.entry).active, (readCache w.entry).orgs.remove key⟩,
              Function.update w.newest key none, w.recorded.filter fun p => p.1 ≠ key,
              if (readCache w.entry).active = some key then none else (readCache w.entry).active⟩ := by
        simp [OrgTokens.step, Change.apply, Op.apply, clearOrg, Account.forget, hkey, h.active]
      rwa [hforgot]
  | .op .clearAll => exact sound_start
  | .migrateLegacy legacy =>
    refine sound_of_writeCache (h.tracks.migrateLegacy legacy) ?_
    rw [OrgTokens.migrateLegacy, h.active]

theorem toAuthTokens_sessionFrom {tokens : AuthTokens} {org : String} (h : tokens.orgId = org)
    (slug : Option String) : toAuthTokens org (sessionFrom tokens slug) = tokens := by
  subst h
  rfl

theorem Tracks.get_map {cache : Cache} {newest : String → Option AuthTokens}
    {recorded : List (String × String)} (h : Tracks cache newest recorded) (org : String) :
    (cache.orgs.get org).map (toAuthTokens org) = newest org := by
  rw [h.session, Option.map_map]
  cases hnewest : newest org with
  | none => rfl
  | some tokens => exact congrArg some (toAuthTokens_sessionFrom (h.own org tokens hnewest) _)

theorem Sound.resolves {w : Account} (h : Sound w) : Resolves w where
  active org horg := by
    rw [h.tracks.isSome_get]
    exact h.tracks.cached org horg
  stored := by
    rw [h.entry, readCache_writeCache, writeCache]
    split
    case isTrue hempty => exact iff_of_true rfl hempty.2
    case isFalse hne =>
      refine iff_of_false (by simp) fun hentries => hne ⟨?_, hentries⟩
      rw [Option.eq_none_iff_forall_not_mem]
      intro org horg
      have hget := h.tracks.isSome_get org
      rw [h.tracks.cached org horg, SortedMap.get, hentries] at hget
      exact absurd hget (by simp)
  unpinned := by
    rw [resolveSession, resolveOrgIdIn, h.active]
    exact congrArg _ (funext h.tracks.get_map)
  pinnedId ident hsome := by
    rw [resolveSession, resolveOrgIdIn, h.tracks.keyFor_eq, if_pos hsome]
    exact h.tracks.get_map ident
  pinnedSlug ident hnone := by
    rw [resolveSession, resolveOrgIdIn, h.tracks.keyFor_eq, if_neg (by simp [hnone])]
    exact congrArg _ (funext h.tracks.get_map)
  own := h.tracks.own

theorem get_apply_of_not_mem_slots {entry : Option Cache} {change : Change} {org : String}
    (h : org ∉ change.slots entry) :
    (readCache (change.apply entry)).orgs.get org = (readCache entry).orgs.get org := by
  match change with
  | .op (.setActive tokens slug) =>
    show (readCache (writeCache (setActive tokens slug (readCache entry)))).orgs.get org = _
    rw [readCache_writeCache]
    exact SortedMap.get_insert_of_ne _ _ (by simpa [Change.slots] using h)
  | .op (.updateInPlace tokens) =>
    show (readCache (writeCache (updateInPlace tokens (readCache entry)))).orgs.get org = _
    rw [readCache_writeCache]
    exact SortedMap.get_insert_of_ne _ _ (by simpa [Change.slots] using h)
  | .op (.setActiveLocal ident) =>
    simp only [Change.apply, Op.apply, setActiveLocal]
    cases keyFor (readCache entry) ident with
    | none => rfl
    | some key =>
      show (readCache (writeCache _)).orgs.get org = _
      rw [readCache_writeCache]
  -- the slot that goes is the one the identifier finds
  | .op (.clearOrg ident) =>
    simp only [Change.slots] at h
    simp only [Change.apply, Op.apply, clearOrg]
    cases hkey : keyFor (readCache entry) ident with
    | none => rfl
    | some key =>
      rw [hkey] at h
      show (readCache (writeCache _)).orgs.get org = _
      rw [readCache_writeCache]
      exact SortedMap.get_remove_of_ne _ (by simpa using h)
  | .op .clearAll => exact (SortedMap.get_eq_none_iff.mpr h).symm
  | .migrateLegacy legacy =>
    show (readCache (writeCache (migrateLegacy legacy (readCache entry)))).orgs.get org = _
    rw [readCache_writeCache, migrateLegacy]
    split
    · rfl
    · exact SortedMap.get_insert_of_ne _ _ (by simpa [Change.slots] using h)

/-- In every history whose slugs are recorded below those on record, every state resolves
    as it should; and no change of any history edits a slot it is not about. -/
theorem eachState_resolves {changes : List Change}
    (h : EachStep step RecordsBelow Account.start changes) :
    EachState step Resolves Account.start changes
      ∧ ∀ entry (change : Change), ∀ org ∉ change.slots entry,
        (readCache (change.apply entry)).orgs.get org = (readCache entry).orgs.get org :=
  ⟨(eachState_of_inv (fun _ _ hw hbelow => hw.step hbelow) sound_start h).imp _
      fun _ hw => hw.resolves,
    fun _ _ _ hslot => get_apply_of_not_mem_slots hslot⟩

/-! ### A slug that moves -/

/-- An organization gives its slug to another, whose id is lesser. -/
def renamedBelow : List Change :=
  [.op (.setActive zephyrLogin (some "team")), .op (.setActive acmeLogin (some "team")),
    .op (.updateInPlace acmeRefreshed), .op (.setActiveLocal "org_zephyr"), .op (.clearOrg "team")]

theorem eachState_resolves_of_renamedBelow :
    EachStep step RecordsBelow Account.start renamedBelow
      ∧ EachState step Resolves Account.start renamedBelow :=
  ⟨by decide +kernel, (eachState_resolves (by decide +kernel)).1⟩

/-- An organization gives its slug to another, whose id is greater. -/
def renamedAbove : List Change :=
  [.op (.setActive acmeLogin (some "team")), .op (.setActive zephyrLogin (some "team"))]

/-- The slug still gets the session of the organization that had it before. -/
theorem not_resolves_of_renamedAbove :
    ¬ EachState step Resolves Account.start renamedAbove := by
  intro h
  have hslug := h.last.pinnedSlug "team" (by decide +kernel)
  exact absurd hslug (by decide +kernel)

end OrgTokens
end Inkentry
