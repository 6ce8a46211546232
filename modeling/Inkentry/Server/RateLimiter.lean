/-
  Inkentry.Server.RateLimiter

  The in-process rate limiter: a bucket for each caller with the start of its
  window and the requests served in it, at most `maxBuckets` of them.  Expired
  buckets are swept once a window and when a new caller finds the map full; a
  map full of live windows drops the oldest.

  A hash map is walked in no particular order, so the order that breaks ties
  between equally old windows comes with the request.

  `serve` is the limiter that holds live windows and nothing else.  `check`
  refines it whatever is swept (`checkSweeping_refines`): that a sweep changes no
  later decision and that callers are treated fairly are facts about `serve`.
-/

import Mathlib.Data.List.MinMax
import Mathlib.Data.String.Basic
import Inkentry.Lib.FixedWindow
import Inkentry.Lib.Runs
import Inkentry.Lib.SortedMap

namespace Inkentry
namespace Server

/-! ## The limiter -/

structure WindowEntry where
  count : ℕ
  windowStart : ℕ
  deriving DecidableEq

abbrev Entries := SortedMap String WindowEntry

structure Buckets where
  entries : Entries
  lastSweep : ℕ
  deriving DecidableEq

def DEFAULT_MAX_BUCKETS : ℕ := 10000

/-- What a limiter is made with; the counts are of a `u32`, and a count stays at or
    below `maxRequests`. -/
structure RateLimiter where
  maxRequests : ℕ
  window : ℕ
  maxBuckets : ℕ
  maxBuckets_pos : 0 < maxBuckets

/-- An order to walk a map in. -/
structure Walk where
  order : Entries → List (String × WindowEntry)
  perm : ∀ m, (order m).Perm m.entries

/-- The walk's first key among the oldest windows. -/
def Walk.oldest (walk : Walk) (m : Entries) : Option String :=
  ((walk.order m).argmin fun e => e.2.windowStart).map Prod.fst

structure CheckRequest where
  key : String
  now : ℕ
  walk : Walk

theorem Walk.exists_get_of_oldest {walk : Walk} {m : Entries} {k : String} (h : walk.oldest m = some k) :
    ∃ e, m.get k = some e ∧ ∀ k' e', m.get k' = some e' → e.windowStart ≤ e'.windowStart := by
  obtain ⟨⟨k, e⟩, hmin, rfl⟩ := Option.map_eq_some_iff.mp h
  refine ⟨e, SortedMap.get_eq_some_iff.mpr ?_, fun k' e' h' => ?_⟩
  · exact (walk.perm m).mem_iff.mp (List.argmin_mem hmin)
  · have hmem := (walk.perm m).mem_iff.mpr (SortedMap.get_eq_some_iff.mp h')
    exact List.le_of_mem_argmin (f := fun e : String × WindowEntry => e.2.windowStart) hmem hmin

theorem Walk.oldest_eq_none_iff {walk : Walk} {m : Entries} :
    walk.oldest m = none ↔ m.entries = [] := by
  rw [Walk.oldest, Option.map_eq_none_iff, List.argmin_eq_none]
  constructor
  · intro h
    exact (h ▸ walk.perm m).nil_eq.symm
  · intro h
    exact (h ▸ walk.perm m).eq_nil

namespace RateLimiter

def withWindow (maxRequests window : ℕ) : RateLimiter where
  maxRequests := maxRequests
  window := window
  maxBuckets := DEFAULT_MAX_BUCKETS
  maxBuckets_pos := by decide

def withMaxBuckets (lim : RateLimiter) (maxBuckets : ℕ) : RateLimiter where
  maxRequests := lim.maxRequests
  window := lim.window
  maxBuckets := max maxBuckets 1
  maxBuckets_pos := by omega

variable (lim : RateLimiter)

/-- The live part of a map. -/
def live (now : ℕ) (m : Entries) : Entries := m.retain fun e => now - e.windowStart < lim.window

def sweepExpired (buckets : Buckets) (now : ℕ) : Buckets := ⟨lim.live now buckets.entries, now⟩

/-- Drops the oldest window while the map is full. -/
def evict (walk : Walk) (m : Entries) : Entries :=
  if lim.maxBuckets ≤ m.entries.length then
    match _h : walk.oldest m with
    | none => m
    | some oldest => evict walk (m.remove oldest)
  else m
termination_by m.entries.length
decreasing_by
  obtain ⟨e, hget, -⟩ := Walk.exists_get_of_oldest _h
  exact SortedMap.length_remove_of_some hget

/-- Room for a new caller, with the sweep that comes first done or left out. -/
def makeRoom (sweep : Bool) (buckets : Buckets) (req : CheckRequest) : Buckets :=
  if buckets.entries.get req.key = none ∧ lim.maxBuckets ≤ buckets.entries.entries.length then
    let swept := if sweep then lim.sweepExpired buckets req.now else buckets
    ⟨lim.evict req.walk swept.entries, swept.lastSweep⟩
  else buckets

/-- The window a request falls into. -/
def entryOf (m : Entries) (req : CheckRequest) : WindowEntry :=
  let entry := (m.get req.key).getD ⟨0, req.now⟩
  if lim.window ≤ req.now - entry.windowStart then ⟨0, req.now⟩ else entry

/-- Counts a request in its window, and whether it is within the limit. -/
def grant (m : Entries) (req : CheckRequest) : Entries × Bool :=
  let entry := lim.entryOf m req
  if lim.maxRequests ≤ entry.count then (m.insert req.key entry, false)
  else (m.insert req.key ⟨entry.count + 1, entry.windowStart⟩, true)

/-- Which of its two sweeps a check does. -/
structure Sweeps where
  first : Bool
  second : Bool
  deriving DecidableEq

def checkSweeping (sweeps : Sweeps) (buckets : Buckets) (req : CheckRequest) : Buckets × Bool :=
  let buckets := if sweeps.first then lim.sweepExpired buckets req.now else buckets
  let buckets := lim.makeRoom sweeps.second buckets req
  let (entries, within) := lim.grant buckets.entries req
  (⟨entries, buckets.lastSweep⟩, within)

/-- The code sweeps first when a window has passed since it last did, and always before it
    drops a window. -/
def check (buckets : Buckets) (req : CheckRequest) : Buckets × Bool :=
  lim.checkSweeping ⟨lim.window ≤ req.now - buckets.lastSweep, true⟩ buckets req

/-! ## Live windows -/

variable {lim} {now : ℕ} {m m' : Entries} {req : CheckRequest}
variable {k : String}

theorem get_live (k : String) :
    (lim.live now m).get k = (m.get k).filter fun e => now - e.windowStart < lim.window :=
  SortedMap.get_retain m _ k

theorem live_live (h : now ≤ now') : lim.live now' (lim.live now m) = lim.live now' m := by
  refine SortedMap.ext_get fun k => ?_
  rw [get_live, get_live, get_live]
  cases m.get k with
  | none => rfl
  | some e =>
    by_cases hlive : now - e.windowStart < lim.window
    · simp [Option.filter_some, hlive]
    · have hdead : ¬ now' - e.windowStart < lim.window := by omega
      simp [Option.filter_some, hlive, hdead]

theorem live_congr (hlive : lim.live now m = lim.live now m') (h : now ≤ now') :
    lim.live now' m = lim.live now' m' := by
  rw [← live_live h, hlive, live_live h]

theorem length_live_le : (lim.live now m).entries.length ≤ m.entries.length :=
  SortedMap.length_retain_le m _

theorem length_live_lt {e : WindowEntry} (hget : m.get k = some e)
    (hdead : lim.window ≤ now - e.windowStart) :
    (lim.live now m).entries.length < m.entries.length :=
  SortedMap.length_retain_lt hget (by simpa using hdead)

/-! ## The limiter of live windows -/

def dropOldest (walk : Walk) (m : Entries) : Entries :=
  match walk.oldest m with
  | none => m
  | some oldest => m.remove oldest

variable (lim) in
/-- The map a request is counted in. -/
def roomFor (m : Entries) (req : CheckRequest) : Entries :=
  if m.get req.key = none ∧ lim.maxBuckets ≤ m.entries.length then dropOldest req.walk m else m

variable (lim) in
def serve (m : Entries) (req : CheckRequest) : Entries × Bool := lim.grant (lim.roomFor m req) req
variable {buckets : Buckets} {walk : Walk}

theorem length_dropOldest_lt (h : m.entries ≠ []) :
    (dropOldest walk m).entries.length < m.entries.length := by
  rw [dropOldest]
  split
  · next hnone => exact absurd (Walk.oldest_eq_none_iff.mp hnone) h
  · next oldest hsome =>
    obtain ⟨e, hget, -⟩ := Walk.exists_get_of_oldest hsome
    exact SortedMap.length_remove_of_some hget

theorem evict_eq (hlen : m.entries.length ≤ lim.maxBuckets) :
    lim.evict walk m = if lim.maxBuckets ≤ m.entries.length then dropOldest walk m else m := by
  rw [evict]
  split
  · next hfull =>
    rw [dropOldest]
    split
    · next hnone => simp only [hnone]
    · next oldest hsome =>
      obtain ⟨e, hget, -⟩ := Walk.exists_get_of_oldest hsome
      have hlt := SortedMap.length_remove_of_some hget
      rw [evict, if_neg (by omega)]
      simp only [hsome]
  · rfl

theorem length_evict_lt (hlen : m.entries.length ≤ lim.maxBuckets) :
    (lim.evict walk m).entries.length < lim.maxBuckets := by
  have hpos := lim.maxBuckets_pos
  rw [evict_eq hlen]
  split
  · next hfull =>
    have hne : m.entries ≠ [] := fun hnil => by
      rw [hnil, List.length_nil] at hfull
      omega
    exact Nat.lt_of_lt_of_le (length_dropOldest_lt hne) hlen
  · omega

theorem live_dropOldest {e : WindowEntry} (hget : m.get k = some e)
    (hdead : lim.window ≤ now - e.windowStart) :
    lim.live now (dropOldest walk m) = lim.live now m := by
  rw [dropOldest]
  split
  · rfl
  · next oldest hsome =>
    obtain ⟨e₀, hget₀, hmin⟩ := Walk.exists_get_of_oldest hsome
    have hle := hmin k e hget
    refine SortedMap.ext_get fun k' => ?_
    rw [get_live, get_live]
    by_cases hk : k' = oldest
    · have hdead₀ : ¬ now - e₀.windowStart < lim.window := by omega
      rw [hk, SortedMap.get_remove_self, hget₀]
      simp [Option.filter_some, hdead₀]
    · rw [SortedMap.get_remove_of_ne _ hk]

theorem eq_live_or_exists (lim : RateLimiter) (now : ℕ) (m : Entries) : m = lim.live now m ∨
    ∃ k e, m.get k = some e ∧ lim.window ≤ now - e.windowStart := by
  by_cases h : ∃ k e, m.get k = some e ∧ lim.window ≤ now - e.windowStart
  · exact .inr h
  · refine .inl (SortedMap.ext_get fun k => ?_)
    rw [get_live]
    cases hget : m.get k with
    | none => rfl
    | some e =>
      have hlive : now - e.windowStart < lim.window :=
        Nat.lt_of_not_le fun hdead => h ⟨k, e, hget, hdead⟩
      simp [Option.filter_some, hlive]

/-- What an eviction leaves of the live windows does not depend on the expired ones. -/
theorem live_evict (now : ℕ) (hlen : m.entries.length ≤ lim.maxBuckets) :
    lim.live now (lim.evict walk m) = lim.live now
      (if lim.maxBuckets ≤ (lim.live now m).entries.length then dropOldest walk (lim.live now m)
        else lim.live now m) := by
  rw [evict_eq hlen]
  rcases eq_live_or_exists lim now m with heq | ⟨k, e, hget, hdead⟩
  · rw [← heq]
  · have hlt := length_live_lt hget hdead
    rw [if_neg (show ¬ lim.maxBuckets ≤ (lim.live now m).entries.length by omega),
      live_live (Nat.le_refl now)]
    split
    · exact live_dropOldest hget hdead
    · rfl

theorem live_makeRoom (sweep : Bool) (req : CheckRequest)
    (hlen : buckets.entries.entries.length ≤ lim.maxBuckets) :
    lim.live req.now (lim.makeRoom sweep buckets req).entries
      = lim.live req.now (lim.roomFor (lim.live req.now buckets.entries) req) := by
  have hle : (lim.live req.now buckets.entries).entries.length ≤ buckets.entries.entries.length :=
    length_live_le
  rw [makeRoom, roomFor]
  cases hget : buckets.entries.get req.key with
  | none =>
    have hlive : (lim.live req.now buckets.entries).get req.key = none := by
      rw [get_live, hget]
      rfl
    by_cases hfull : lim.maxBuckets ≤ buckets.entries.entries.length
    · rw [if_pos ⟨rfl, hfull⟩]
      simp only [hlive, true_and]
      cases sweep with
      | false => exact live_evict req.now hlen
      | true =>
        show lim.live req.now (lim.evict req.walk (lim.live req.now buckets.entries)) = _
        rw [live_evict req.now (hle.trans hlen), live_live (Nat.le_refl req.now)]
    · rw [if_neg fun h => hfull h.2, if_neg fun h => hfull (h.2.trans hle),
        live_live (Nat.le_refl req.now)]
  | some e =>
    rw [if_neg fun h => Option.some_ne_none e h.1]
    -- the caller's window is live, or its bucket is one that leaves room
    have hroom : ¬ ((lim.live req.now buckets.entries).get req.key = none
        ∧ lim.maxBuckets ≤ (lim.live req.now buckets.entries).entries.length) := by
      rintro ⟨hnone, hfull⟩
      rw [get_live, hget, Option.filter_some] at hnone
      by_cases hlive : req.now - e.windowStart < lim.window
      · simp [hlive] at hnone
      · have hlt := length_live_lt hget (Nat.le_of_not_lt hlive)
        omega
    rw [if_neg hroom, live_live (Nat.le_refl req.now)]

theorem length_makeRoom (sweep : Bool) (req : CheckRequest)
    (hlen : buckets.entries.entries.length ≤ lim.maxBuckets) :
    (lim.makeRoom sweep buckets req).entries.entries.length ≤ lim.maxBuckets
      ∧ ((lim.makeRoom sweep buckets req).entries.get req.key = none →
        (lim.makeRoom sweep buckets req).entries.entries.length < lim.maxBuckets) := by
  rw [makeRoom]
  split
  · cases sweep with
    | false => exact ⟨(length_evict_lt hlen).le, fun _ => length_evict_lt hlen⟩
    | true =>
      have hlive : (lim.live req.now buckets.entries).entries.length ≤ lim.maxBuckets :=
        length_live_le.trans hlen
      exact ⟨(length_evict_lt hlive).le, fun _ => length_evict_lt hlive⟩
  · next hroom => exact ⟨hlen, fun hnone => Nat.lt_of_not_le fun hfull => hroom ⟨hnone, hfull⟩⟩

theorem entryOf_live : lim.entryOf (lim.live req.now m) req = lim.entryOf m req := by
  rw [entryOf, entryOf, get_live]
  cases m.get req.key with
  | none => rfl
  | some e =>
    by_cases hlive : req.now - e.windowStart < lim.window
    · simp [Option.filter_some, hlive]
    · simp [Option.filter_some, hlive, Nat.le_of_not_lt hlive]

theorem live_insert_congr (e : WindowEntry) (h : lim.live now m = lim.live now m') :
    lim.live now (m.insert k e) = lim.live now (m'.insert k e) := by
  refine SortedMap.ext_get fun k' => ?_
  rw [get_live, get_live]
  by_cases hk : k' = k
  · rw [hk, SortedMap.get_insert_self, SortedMap.get_insert_self]
  · rw [SortedMap.get_insert_of_ne _ _ hk, SortedMap.get_insert_of_ne _ _ hk, ← get_live, ← get_live, h]

theorem grant_congr (h : lim.live req.now m = lim.live req.now m') :
    lim.live req.now (lim.grant m req).1 = lim.live req.now (lim.grant m' req).1
      ∧ (lim.grant m req).2 = (lim.grant m' req).2 := by
  have hentry : lim.entryOf m req = lim.entryOf m' req := by
    rw [← entryOf_live, h, entryOf_live]
  rw [grant, grant, hentry]
  split
  · exact ⟨live_insert_congr _ h, rfl⟩
  · exact ⟨live_insert_congr _ h, rfl⟩

theorem length_grant {bound : ℕ} (hlen : m.entries.length ≤ bound)
    (hnew : m.get req.key = none → m.entries.length < bound) :
    (lim.grant m req).1.entries.length ≤ bound := by
  have hinsert : ∀ e, (m.insert req.key e).entries.length ≤ bound := by
    intro e
    cases hget : m.get req.key with
    | none => exact (SortedMap.length_insert_le m _ e).trans (hnew hget)
    | some e' => exact (SortedMap.length_insert_of_some e hget).le.trans hlen
  rw [grant]
  split
  · exact hinsert _
  · exact hinsert _

/-! ## Every check -/

theorem length_checkSweeping (sweeps : Sweeps)
    (hlen : buckets.entries.entries.length ≤ lim.maxBuckets) :
    (lim.checkSweeping sweeps buckets req).1.entries.entries.length ≤ lim.maxBuckets := by
  have hfirst : (if sweeps.first then lim.sweepExpired buckets req.now
      else buckets).entries.entries.length ≤ lim.maxBuckets := by
    split
    · exact length_live_le.trans hlen
    · exact hlen
  obtain ⟨hroom, hnew⟩ := length_makeRoom sweeps.second req hfirst
  exact length_grant hroom hnew

/-- Whatever is swept, a check does to the live windows what `serve` does. -/
theorem checkSweeping_refines (sweeps : Sweeps) (req : CheckRequest)
    (hlen : buckets.entries.entries.length ≤ lim.maxBuckets) :
    lim.live req.now (lim.checkSweeping sweeps buckets req).1.entries
        = lim.live req.now (lim.serve (lim.live req.now buckets.entries) req).1
      ∧ (lim.checkSweeping sweeps buckets req).2
        = (lim.serve (lim.live req.now buckets.entries) req).2 := by
  have hfirst : (if sweeps.first then lim.sweepExpired buckets req.now
      else buckets).entries.entries.length ≤ lim.maxBuckets := by
    split
    · exact length_live_le.trans hlen
    · exact hlen
  have hlive : lim.live req.now (if sweeps.first then lim.sweepExpired buckets req.now
      else buckets).entries = lim.live req.now buckets.entries := by
    split
    · exact live_live (Nat.le_refl req.now)
    · rfl
  have hroom := live_makeRoom sweeps.second req hfirst
  rw [hlive] at hroom
  exact grant_congr hroom

end RateLimiter
end Server
end Inkentry
