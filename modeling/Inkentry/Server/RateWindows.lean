/-
  Inkentry.Server.RateWindows

  What the rate limiter promises over whole runs: the map stays within its
  bound, no sweep changes an answer, and while no more callers are live than
  there are buckets, a request is refused exactly when its caller's window is
  used up.

  The windows are read off the log of requests and answers alone.  `Tracks` ties
  them to the limiter: the live buckets are the live windows of the log.
-/

import Mathlib.Data.List.Dedup
import Inkentry.Server.RateLimiter

namespace Inkentry
namespace Server
namespace RateLimiter

variable (lim : RateLimiter)

/-! ## Runs -/

def InOrder (requests : List CheckRequest) : Prop := requests.Pairwise fun req req' => req.now ≤ req'.now

/-- The requests with their answers. -/
def served : Buckets → List CheckRequest → List (CheckRequest × Bool)
  | _, [] => []
  | buckets, req :: rest => (req, (lim.check buckets req).2) :: served (lim.check buckets req).1 rest

/-- The same with a choice of sweeps for each request. -/
def servedSweeping : Buckets → List (Sweeps × CheckRequest) → List (CheckRequest × Bool)
  | _, [] => []
  | buckets, (sweeps, req) :: rest =>
    (req, (lim.checkSweeping sweeps buckets req).2)
      :: servedSweeping (lim.checkSweeping sweeps buckets req).1 rest

def bucketsAfter (buckets : Buckets) (requests : List CheckRequest) : Buckets :=
  Runs.run (fun buckets req => (lim.check buckets req).1) buckets requests

/-- The map a limiter starts with. -/
def created (now : ℕ) : Buckets := ⟨.empty, now⟩

/-! ## The log -/

/-- A caller's requests. -/
def logOf (key : String) (served : List (CheckRequest × Bool)) : List (ℕ × Bool) :=
  (served.filter fun r => r.1.key = key).map fun r => (r.1.now, r.2)

/-- A caller's last window. -/
def lastWindow (key : String) (served : List (CheckRequest × Bool)) : Option WindowEntry :=
  (FixedWindow.start lim.window (logOf key served)).map fun start =>
    ⟨FixedWindow.counted lim.window start (logOf key served), start⟩

def isLive (now : ℕ) (e : WindowEntry) : Bool := now - e.windowStart < lim.window

/-- How many callers have a live window. -/
def liveKeys (served : List (CheckRequest × Bool)) (now : ℕ) : ℕ :=
  ((served.map fun r => r.1.key).dedup.filter fun key =>
    (lim.lastWindow key served).any (lim.isLive now)).length

/-- After no request were there more live callers than buckets. -/
def Uncrowded (served : List (CheckRequest × Bool)) : Prop :=
  ∀ front last, front ++ [last] <+: served →
    lim.liveKeys (front ++ [last]) last.1.now ≤ lim.maxBuckets

/-- The live buckets are the live windows of the log. -/
def Tracks (now : ℕ) (m : Entries) (served : List (CheckRequest × Bool)) : Prop :=
  ∀ key, (lim.live now m).get key = (lim.lastWindow key served).filter (lim.isLive now)

section

variable {lim} {served : List (CheckRequest × Bool)} {m : Entries} {req : CheckRequest} {answer : Bool}
variable {key : String}

theorem logOf_append_of_ne (h : key ≠ req.key) :
    logOf key (served ++ [(req, answer)]) = logOf key served := by
  simp [logOf, List.filter_append, Ne.symm h]

theorem logOf_append_self :
    logOf req.key (served ++ [(req, answer)]) = logOf req.key served ++ [(req.now, answer)] := by
  simp [logOf, List.filter_append]

theorem logOf_inOrder (key : String) (h : InOrder (served.map Prod.fst)) :
    FixedWindow.InOrder (logOf key served) :=
  List.pairwise_map.mpr ((List.pairwise_map.mp h).filter _)

theorem Tracks.mono {now now' : ℕ} (h : lim.Tracks now m served) (hnow : now ≤ now') :
    lim.Tracks now' m served := by
  intro key
  rw [← live_live hnow, get_live, h key]
  cases lim.lastWindow key served with
  | none => rfl
  | some e =>
    by_cases hlive : now' - e.windowStart < lim.window
    · have hbefore : now - e.windowStart < lim.window := by omega
      simp [Option.filter_some, isLive, hlive, hbefore]
    · by_cases hbefore : now - e.windowStart < lim.window
      · simp [Option.filter_some, isLive, hbefore]
      · simp [Option.filter_some, isLive, hlive, hbefore]

theorem mem_keys_of_lastWindow {e : WindowEntry} (h : lim.lastWindow key served = some e) :
    key ∈ served.map fun r => r.1.key := by
  by_contra hkey
  have hnil : logOf key served = [] := by
    refine List.map_eq_nil_iff.mpr (List.filter_eq_nil_iff.mpr fun r hr => ?_)
    simpa using fun heq => hkey (List.mem_map.mpr ⟨r, hr, heq⟩)
  rw [lastWindow, hnil] at h
  cases h

/-! ## One request -/

theorem mem_liveKeys_iff {now : ℕ} :
    key ∈ (served.map fun r => r.1.key).dedup.filter (fun key =>
      (lim.lastWindow key served).any (lim.isLive now))
      ↔ ∃ e, lim.lastWindow key served = some e ∧ lim.isLive now e := by
  rw [List.mem_filter, List.mem_dedup, Option.any_eq_true]
  constructor
  · rintro ⟨-, e, he, hlive⟩
    exact ⟨e, he, hlive⟩
  · rintro ⟨e, he, hlive⟩
    exact ⟨mem_keys_of_lastWindow he, e, he, hlive⟩

theorem isLive_lastWindow_self (hpos : 0 < lim.window) :
    ∃ e, lim.lastWindow req.key (served ++ [(req, answer)]) = some e ∧ lim.isLive req.now e := by
  rw [lastWindow, logOf_append_self, FixedWindow.start_append]
  refine ⟨_, rfl, decide_eq_true ?_⟩
  have hlt := FixedWindow.lt_opened_add hpos
    (FixedWindow.start lim.window (logOf req.key served)) req.now
  show req.now - FixedWindow.opened lim.window
    (FixedWindow.start lim.window (logOf req.key served)) req.now < lim.window
  omega

theorem room_of_uncrowded (htracks : lim.Tracks req.now m served)
    (hcrowd : lim.liveKeys (served ++ [(req, answer)]) req.now ≤ lim.maxBuckets)
    (hnone : (lim.live req.now m).get req.key = none) :
    (lim.live req.now m).entries.length < lim.maxBuckets := by
  rcases Nat.eq_zero_or_pos lim.window with hzero | hpos
  · -- no window is ever live
    have hnil : (lim.live req.now m).entries = [] := by
      refine List.filter_eq_nil_iff.mpr fun e _ => ?_
      simp [hzero]
    rw [hnil]
    exact lim.maxBuckets_pos
  · have hnodup : (req.key :: (lim.live req.now m).keys).Nodup :=
      List.nodup_cons.mpr ⟨SortedMap.get_eq_none_iff.mp hnone, SortedMap.nodup_keys _⟩
    have hsubset : ∀ key ∈ req.key :: (lim.live req.now m).keys,
        ∃ e, lim.lastWindow key (served ++ [(req, answer)]) = some e ∧ lim.isLive req.now e := by
      intro key hkey
      by_cases hself : key = req.key
      · rw [hself]
        exact isLive_lastWindow_self hpos
      · have hmem := (List.mem_cons.mp hkey).resolve_left hself
        obtain ⟨e, hget⟩ : ∃ e, (lim.live req.now m).get key = some e :=
          Option.ne_none_iff_exists'.mp fun hget => SortedMap.get_eq_none_iff.mp hget hmem
        rw [htracks key, Option.filter_eq_some_iff] at hget
        refine ⟨e, ?_, hget.2⟩
        rw [lastWindow, logOf_append_of_ne hself]
        exact hget.1
    have hle := hnodup.length_le_of_subset fun key hkey =>
      mem_liveKeys_iff.mpr (hsubset key hkey)
    rw [List.length_cons, SortedMap.keys, List.length_map] at hle
    exact Nat.lt_of_lt_of_le (Nat.lt_of_succ_le hle) hcrowd

/-- The window a request falls into is the log's next one. -/
theorem entryOf_eq (htracks : lim.Tracks req.now m served)
    (horder : InOrder ((served ++ [(req, answer)]).map Prod.fst)) :
    lim.entryOf m req
      = ⟨FixedWindow.counted lim.window
          (FixedWindow.opened lim.window (FixedWindow.start lim.window (logOf req.key served)) req.now)
          (logOf req.key served),
        FixedWindow.opened lim.window (FixedWindow.start lim.window (logOf req.key served)) req.now⟩ := by
  have hlog := logOf_inOrder req.key horder
  rw [logOf_append_self] at hlog
  rw [← entryOf_live, entryOf, htracks, lastWindow]
  cases hcur : FixedWindow.start lim.window (logOf req.key served) with
  | none =>
    rw [FixedWindow.start_eq_none_iff.mp hcur]
    simp [FixedWindow.opened, FixedWindow.counted]
  | some cur =>
    -- a bucket that is over counts nothing of the window that opens now
    by_cases hlive : req.now - cur < lim.window
    · simp [Option.filter_some, isLive, FixedWindow.opened, hlive]
    · have hfresh : FixedWindow.counted lim.window req.now (logOf req.key served) = 0 :=
        FixedWindow.counted_of_fresh hlog fun cur' hcur' => by
          rw [hcur, Option.mem_some_iff] at hcur'
          omega
      simp [Option.filter_some, isLive, FixedWindow.opened, hlive, hfresh]

/-- A request below the allowance of its window is granted and counted, any other refused. -/
theorem check_tracks {buckets : Buckets}
    (hlen : buckets.entries.entries.length ≤ lim.maxBuckets)
    (htracks : lim.Tracks req.now buckets.entries served)
    (hanswer : answer = (lim.check buckets req).2)
    (hcrowd : lim.liveKeys (served ++ [(req, answer)]) req.now ≤ lim.maxBuckets)
    (horder : InOrder ((served ++ [(req, answer)]).map Prod.fst)) :
    (answer = true ↔ FixedWindow.counted lim.window
        (FixedWindow.opened lim.window (FixedWindow.start lim.window (logOf req.key served)) req.now)
        (logOf req.key served) < lim.maxRequests)
      ∧ lim.Tracks req.now (lim.check buckets req).1.entries (served ++ [(req, answer)]) := by
  set cur := FixedWindow.start lim.window (logOf req.key served) with hcur
  set start := FixedWindow.opened lim.window cur req.now with hstart
  set count := FixedWindow.counted lim.window start (logOf req.key served) with hcount
  -- there is room for a new key, so no bucket is evicted
  have hroom : lim.roomFor (lim.live req.now buckets.entries) req = lim.live req.now buckets.entries :=
    if_neg fun ⟨hnone, hfull⟩ =>
      absurd hfull (Nat.not_le.mpr (room_of_uncrowded htracks hcrowd hnone))
  have hentry : lim.entryOf (lim.live req.now buckets.entries) req = ⟨count, start⟩ := by
    rw [entryOf_live, entryOf_eq htracks horder]
  -- swept or not, the live buckets end up as a single pass leaves them
  obtain ⟨hlive, hserve⟩ := checkSweeping_refines
    ⟨lim.window ≤ req.now - buckets.lastSweep, true⟩ req hlen
  rw [serve, hroom, grant, hentry] at hlive hserve
  have hval : answer = decide (count < lim.maxRequests) := by
    rw [hanswer]
    refine hserve.trans ?_
    by_cases hmax : lim.maxRequests ≤ count
    · simp [hmax]
    · simp [hmax, Nat.lt_of_not_le hmax]
  have hcounted : lim.live req.now (lim.check buckets req).1.entries
      = lim.live req.now ((lim.live req.now buckets.entries).insert req.key
        ⟨count + if answer = true then 1 else 0, start⟩) := by
    refine hlive.trans ?_
    by_cases hmax : lim.maxRequests ≤ count
    · have hrefused : answer = false := by rw [hval, decide_eq_false (Nat.not_lt.mpr hmax)]
      simp [hmax, hrefused]
    · have hgranted : answer = true := by rw [hval, decide_eq_true (Nat.lt_of_not_le hmax)]
      simp [hmax, hgranted]
  refine ⟨by rw [hval, decide_eq_true_iff], fun key => ?_⟩
  rw [hcounted, get_live]
  -- the bucket of the request counts it; the others are as they were
  by_cases hself : key = req.key
  · rw [hself, SortedMap.get_insert_self, lastWindow, logOf_append_self, FixedWindow.start_append,
      ← hcur, ← hstart, Option.map_some, FixedWindow.counted_append, ← hcount, Option.filter_some,
      Option.filter_some, isLive]
    have hle : start ≤ req.now := by
      have hlog := logOf_inOrder req.key horder
      rw [logOf_append_self] at hlog
      exact FixedWindow.opened_le (FixedWindow.start_le hlog)
    by_cases hin : req.now - start < lim.window
    · have hbound : start ≤ req.now ∧ req.now < start + lim.window := ⟨hle, by omega⟩
      simp [hin, hbound.1, hbound.2]
    · simp [hin]
  · rw [SortedMap.get_insert_of_ne _ _ hself, ← get_live, live_live (Nat.le_refl req.now), htracks key,
      lastWindow, lastWindow, logOf_append_of_ne hself]

/-! ## Every run -/

variable {requests : List CheckRequest}

@[simp] theorem map_fst_served (buckets : Buckets) (requests : List CheckRequest) :
    (lim.served buckets requests).map Prod.fst = requests := by
  induction requests generalizing buckets with
  | nil => rfl
  | cons req rest ih => rw [RateLimiter.served, List.map_cons, ih]

theorem served_append (buckets : Buckets) (requests requests' : List CheckRequest) :
    lim.served buckets (requests ++ requests')
      = lim.served buckets requests ++ lim.served (lim.bucketsAfter buckets requests) requests' := by
  induction requests generalizing buckets with
  | nil => rfl
  | cons req rest ih => simp only [List.cons_append, RateLimiter.served, ih, bucketsAfter, Runs.run_cons]

theorem length_bucketsAfter {buckets : Buckets} (hlen : buckets.entries.entries.length ≤ lim.maxBuckets)
    (requests : List CheckRequest) :
    (lim.bucketsAfter buckets requests).entries.entries.length ≤ lim.maxBuckets := by
  have hstep : ∀ (buckets : Buckets) (req : CheckRequest), buckets.entries.entries.length ≤ lim.maxBuckets →
      True → (lim.check buckets req).1.entries.entries.length ≤ lim.maxBuckets :=
    fun _ _ hlen _ => length_checkSweeping _ hlen
  exact Runs.run_inv hstep hlen (Runs.eachStep_true _ _)

theorem length_created (start : ℕ) : (created start).entries.entries.length ≤ lim.maxBuckets :=
  Nat.zero_le _

theorem served_concat (buckets : Buckets) (requests : List CheckRequest) (req : CheckRequest) :
    lim.served buckets (requests ++ [req]) = lim.served buckets requests
      ++ [(req, (lim.check (lim.bucketsAfter buckets requests) req).2)] := by
  rw [served_append]
  rfl

theorem bucketsAfter_concat (buckets : Buckets) (requests : List CheckRequest) (req : CheckRequest) :
    lim.bucketsAfter buckets (requests ++ [req])
      = (lim.check (lim.bucketsAfter buckets requests) req).1 := by
  rw [bucketsAfter, Runs.run_append]
  rfl

/-- In an uncrowded run the live buckets are the live windows, request by request. -/
theorem tracks_of_uncrowded (start : ℕ) (requests : List CheckRequest) (horder : InOrder requests)
    (hcrowd : lim.Uncrowded (lim.served (created start) requests)) :
    ∀ now, (∀ req ∈ requests, req.now ≤ now) →
      lim.Tracks now (lim.bucketsAfter (created start) requests).entries
        (lim.served (created start) requests) := by
  -- over the requests; the invariant is `Tracks`, at the time of the next one
  induction requests using List.reverseRecOn with
  | nil => exact fun _ _ _ => rfl
  | append_singleton front req ih =>
    intro now hnow
    rw [served_concat] at hcrowd
    have hsplit := List.pairwise_append.mp horder
    have hbefore : ∀ req' ∈ front, req'.now ≤ req.now := fun req' hmem =>
      hsplit.2.2 req' hmem req List.mem_cons_self
    have htracks := ih hsplit.1 (fun front' last h => hcrowd front' last (h.trans (List.prefix_append _ _)))
      req.now hbefore
    have horder' : InOrder ((lim.served (created start) front
        ++ [(req, (lim.check (lim.bucketsAfter (created start) front) req).2)]).map Prod.fst) := by
      rwa [← served_concat, map_fst_served]
    have hstep := (check_tracks (length_bucketsAfter (length_created start) front) htracks rfl
      (hcrowd _ _ List.prefix_rfl) horder').2
    rw [served_concat, bucketsAfter_concat]
    exact hstep.mono (hnow req (List.mem_append_right _ List.mem_cons_self))

theorem eq_served_of_prefix : ∀ {buckets : Buckets}
    {front : List (CheckRequest × Bool)}, front <+: lim.served buckets requests →
    front = lim.served buckets (front.map Prod.fst) := by
  induction requests with
  | nil =>
    intro buckets front h
    rw [List.prefix_nil.mp h]
    rfl
  | cons req rest ih =>
    intro buckets front h
    cases front with
    | nil => rfl
    | cons r front =>
      obtain ⟨rfl, hrest⟩ := List.cons_prefix_cons.mp h
      rw [List.map_cons, RateLimiter.served, ← ih hrest]

/-- In an uncrowded run every answer is the log's. -/
theorem answer_iff_of_uncrowded {start : ℕ} (horder : InOrder requests)
    (hcrowd : lim.Uncrowded (lim.served (created start) requests))
    {before : List (CheckRequest × Bool)} {r : CheckRequest × Bool}
    (hbefore : before ++ [r] <+: lim.served (created start) requests) :
    r.2 = true ↔ FixedWindow.counted lim.window
        (FixedWindow.opened lim.window (FixedWindow.start lim.window (logOf r.1.key before)) r.1.now)
        (logOf r.1.key before) < lim.maxRequests := by
  have hrun := eq_served_of_prefix hbefore
  have hcut : (before ++ [r]).map Prod.fst <+: requests := by
    have hmap := hbefore.map Prod.fst
    rwa [map_fst_served] at hmap
  have horder' : InOrder ((before ++ [r]).map Prod.fst) := horder.sublist hcut.sublist
  rw [List.map_append, List.map_singleton, served_concat] at hrun
  obtain ⟨hfront, hlast⟩ := List.append_inj' hrun rfl
  have hr : r.2 = (lim.check (lim.bucketsAfter (created start) (before.map Prod.fst)) r.1).2 :=
    congrArg Prod.snd (List.singleton_inj.mp hlast)
  have hsplit : InOrder (before.map Prod.fst) ∧ ∀ req ∈ before.map Prod.fst, req.now ≤ r.1.now := by
    rw [List.map_append, InOrder, List.pairwise_append] at horder'
    exact ⟨horder'.1, fun req hmem => horder'.2.2 req hmem r.1 (by simp)⟩
  have htracks := tracks_of_uncrowded start (before.map Prod.fst) hsplit.1
    (fun front last h => hcrowd front last
      (h.trans (hfront ▸ (List.prefix_append before [r]).trans hbefore)))
    r.1.now hsplit.2
  rw [← hfront] at htracks
  exact (check_tracks (length_bucketsAfter (length_created start) _) htracks hr
    (hcrowd before r hbefore) horder').1

/-- Limiters with the same live buckets answer alike, whatever each of them sweeps. -/
theorem servedSweeping_eq : ∀ (steps : List (Sweeps × CheckRequest)) {buckets buckets' : Buckets},
    buckets.entries.entries.length ≤ lim.maxBuckets → buckets'.entries.entries.length ≤ lim.maxBuckets →
    InOrder (steps.map Prod.snd) →
    (∀ step ∈ steps, lim.live step.2.now buckets.entries = lim.live step.2.now buckets'.entries) →
    lim.servedSweeping buckets steps = lim.served buckets' (steps.map Prod.snd) := by
  intro steps
  -- both runs keep the same live buckets, which is all that a request reads
  induction steps with
  | nil => exact fun _ _ _ _ => rfl
  | cons step rest ih =>
    obtain ⟨sweeps, req⟩ := step
    intro buckets buckets' hlen hlen' horder hlive
    obtain ⟨hfirst, hrest⟩ := List.pairwise_cons.mp horder
    obtain ⟨hmap, hanswer⟩ := checkSweeping_refines sweeps req hlen
    obtain ⟨hmap', hanswer'⟩ := checkSweeping_refines
      ⟨lim.window ≤ req.now - buckets'.lastSweep, true⟩ req hlen'
    rw [hlive (sweeps, req) List.mem_cons_self] at hmap hanswer
    rw [servedSweeping, List.map_cons, RateLimiter.served, hanswer, ← hanswer']
    refine congrArg _ (ih (length_checkSweeping sweeps hlen) (length_checkSweeping _ hlen') hrest ?_)
    intro step hstep
    exact live_congr (hmap.trans hmap'.symm) (hfirst step.2 (List.mem_map_of_mem hstep))

end

theorem exists_prefix_of_logOf {key : String} : ∀ {served : List (CheckRequest × Bool)}
    {before : List (ℕ × Bool)} {e : ℕ × Bool}, before ++ [e] <+: logOf key served →
    ∃ front r, front ++ [r] <+: served ∧ r.1.key = key ∧ logOf key front = before
      ∧ e = (r.1.now, r.2) := by
  intro served
  induction served with
  | nil =>
    intro before e h
    exact absurd (List.prefix_nil.mp h) (by simp)
  | cons r rest ih =>
    intro before e h
    by_cases hkey : r.1.key = key
    · have hlog : ∀ log, logOf key (r :: log) = (r.1.now, r.2) :: logOf key log := fun log => by
        simp [logOf, hkey]
      rw [hlog] at h
      cases before with
      | nil =>
        obtain ⟨rfl, -⟩ := List.cons_prefix_cons.mp h
        exact ⟨[], r, ⟨rest, rfl⟩, hkey, rfl, rfl⟩
      | cons e' before =>
        obtain ⟨rfl, hrest⟩ := List.cons_prefix_cons.mp h
        obtain ⟨front, r', hprefix, hkey', rfl, he⟩ := ih hrest
        exact ⟨r :: front, r', List.cons_prefix_cons.mpr ⟨rfl, hprefix⟩, hkey', hlog front, he⟩
    · have hlog : ∀ log, logOf key (r :: log) = logOf key log := fun log => by
        simp [logOf, hkey]
      rw [hlog] at h
      obtain ⟨front, r', hprefix, hkey', rfl, he⟩ := ih h
      exact ⟨r :: front, r', List.cons_prefix_cons.mpr ⟨rfl, hprefix⟩, hkey', hlog front, he⟩

/-- What the limiter promises. -/
structure CheckLaw (lim : RateLimiter) : Prop where
  bounded : ∀ (start : ℕ) (requests : List CheckRequest),
    (lim.bucketsAfter (created start) requests).entries.entries.length ≤ lim.maxBuckets
  refused_iff : ∀ (start : ℕ) (requests : List CheckRequest), InOrder requests →
    lim.Uncrowded (lim.served (created start) requests) →
    ∀ before r, before ++ [r] <+: lim.served (created start) requests →
      (r.2 = false ↔ lim.maxRequests ≤ FixedWindow.counted lim.window
        (FixedWindow.opened lim.window (FixedWindow.start lim.window (logOf r.1.key before)) r.1.now)
        (logOf r.1.key before))
  granted_le : ∀ (start : ℕ) (requests : List CheckRequest), InOrder requests →
    lim.Uncrowded (lim.served (created start) requests) →
    ∀ key front windowStart, front <+: lim.served (created start) requests →
      FixedWindow.start lim.window (logOf key front) = some windowStart →
      FixedWindow.counted lim.window windowStart (logOf key (lim.served (created start) requests))
        ≤ lim.maxRequests
  sweeps_unseen : ∀ (start : ℕ) (steps : List (Sweeps × CheckRequest)), InOrder (steps.map Prod.snd) →
    lim.servedSweeping (created start) steps = lim.served (created start) (steps.map Prod.snd)

theorem check_law (lim : RateLimiter) : CheckLaw lim where
  bounded := fun start requests => length_bucketsAfter (length_created start) requests
  refused_iff := by
    intro start requests horder hcrowd before r hbefore
    rw [← Nat.not_lt, ← answer_iff_of_uncrowded horder hcrowd hbefore, Bool.not_eq_true]
  granted_le := by
    intro start requests horder hcrowd key front windowStart hfront hstart
    have hlog : FixedWindow.InOrder (logOf key (lim.served (created start) requests)) :=
      logOf_inOrder key (by rwa [map_fst_served])
    refine FixedWindow.counted_le hlog ?_ (List.IsPrefix.map _ (hfront.filter _)) hstart
    intro before e hbefore hcounts
    obtain ⟨front', r, hprefix, rfl, rfl, rfl⟩ := exists_prefix_of_logOf hbefore
    exact (answer_iff_of_uncrowded horder hcrowd hprefix).mp hcounts
  sweeps_unseen := fun start steps horder =>
    servedSweeping_eq steps (length_created start) (length_created start) horder fun _ _ => rfl

end RateLimiter
end Server
end Inkentry
