/-
  Inkentry.Candidates

  The band classifier that every writer shares: the local `memory add`, harvest
  and the server.  Vector hits fall into the duplicate or the related band by
  their distance, title hits are related and carry none, and each band is
  ranked and capped.

  The candidates are collected in a hash map by id, whose order does not reach
  the result: within a band the sort key ends with the id.  Distances are any
  linear order, and the two floors are parameters.
-/

import Inkentry.Lib.OrderLimit
import Mathlib.Data.Prod.Lex
import Mathlib.Data.String.Basic
import Mathlib.Order.WithBot

namespace Inkentry

open OrderLimit

section Hits

variable {D : Type*}

/-- Distances below which a hit is a duplicate, and below which it is related. -/
structure Floors (D : Type*) where
  memoryDuplicateDistance : D
  memoryMaxQaDistance : D

inductive CandidateBand where
  | duplicate
  | related
  deriving DecidableEq, Repr

/-- One retrieval hit; a title match carries no distance. -/
structure CandidateHit (D : Type*) where
  id : String
  kind : String
  title : String
  createdAt : Int
  distance : Option D

structure Candidate (D : Type*) where
  id : String
  kind : String
  title : String
  createdAt : Int
  distance : Option D
  band : CandidateBand

def MAX_CANDIDATES_PER_BAND : Nat := 5

def CandidateHit.toCandidate (hit : CandidateHit D) (distance : Option D) (band : CandidateBand) :
    Candidate D :=
  ⟨hit.id, hit.kind, hit.title, hit.createdAt, distance, band⟩

/-- `by_id.entry(id).or_insert(candidate)`. -/
def orInsert (byId : List (Candidate D)) (c : Candidate D) : List (Candidate D) :=
  if c.id ∈ byId.map Candidate.id then byId else byId ++ [c]

variable {acc l : List (Candidate D)}

theorem foldl_orInsert_of_nodup
    (h : ((acc ++ l).map Candidate.id).Nodup) : l.foldl orInsert acc = acc ++ l := by
  induction l generalizing acc with
  | nil => simp
  | cons c l ih =>
    have hfresh : c.id ∉ acc.map Candidate.id := by
      rw [List.map_append, List.map_cons] at h
      intro hmem
      exact List.disjoint_of_nodup_append h hmem List.mem_cons_self
    have hstep : orInsert acc c = acc ++ [c] := if_neg hfresh
    rw [List.foldl_cons, hstep, ih (by simpa using h), List.append_assoc, List.singleton_append]

theorem filter_band_foldl_orInsert {band : CandidateBand} (h : ∀ c ∈ l, c.band ≠ band) :
    ((l.foldl orInsert acc).filter fun c => c.band = band)
      = acc.filter fun c => c.band = band := by
  induction l generalizing acc with
  | nil => rfl
  | cons c l ih =>
    rw [List.foldl_cons, ih fun d hd => h d (List.mem_cons_of_mem c hd), orInsert]
    split
    · rfl
    · rw [List.filter_append, List.filter_cons_of_neg (by simpa using h c List.mem_cons_self),
        List.filter_nil, List.append_nil]

end Hits

variable {D : Type*} [LinearOrder D]

/-- A candidate without a distance sorts after every one that has one. -/
def Candidate.distanceKey (c : Candidate D) : WithTop D :=
  match c.distance with
  | some d => (d : WithTop D)
  | none => ⊤

def Candidate.key (c : Candidate D) : WithTop D ×ₗ String := toLex (c.distanceKey, c.id)

/-- One band, ranked and capped. -/
def rankBand (byId : List (Candidate D)) (band : CandidateBand) : List (Candidate D) :=
  orderLimit Candidate.key MAX_CANDIDATES_PER_BAND (byId.filter fun c => c.band = band)

/-- The band of a distance; a hit that clears neither floor is dropped. -/
def bandOf (floors : Floors D) : Option D → Option CandidateBand
  | some d =>
    if d < floors.memoryDuplicateDistance then some .duplicate
    else if d < floors.memoryMaxQaDistance then some .related
    else none
  | none => none

/-- The candidates among the vector hits, without the entry that asks. -/
def vectorCandidates (floors : Floors D) (excludeId : Option String)
    (vectorHits : List (CandidateHit D)) : List (Candidate D) :=
  (vectorHits.filter fun hit => excludeId ≠ some hit.id).filterMap fun hit =>
    (bandOf floors hit.distance).map (hit.toCandidate hit.distance)

/-- The candidates among the title hits. -/
def ftsCandidates (excludeId : Option String) (ftsHits : List (CandidateHit D)) :
    List (Candidate D) :=
  (ftsHits.filter fun hit => excludeId ≠ some hit.id).map fun hit => hit.toCandidate none .related

/-- Bands and ranks a candidate pool; the vector hits are entered first, and keep
    their distance and band when the title finds them too. -/
def classifyCandidates (floors : Floors D) (vectorHits ftsHits : List (CandidateHit D))
    (excludeId : Option String) : List (Candidate D) :=
  let byId := (ftsCandidates excludeId ftsHits).foldl orInsert
    ((vectorCandidates floors excludeId vectorHits).foldl orInsert [])
  rankBand byId .duplicate ++ rankBand byId .related

/-! ## What a band holds -/

variable {floors : Floors D}
variable {hits : List (CandidateHit D)} {excludeId : Option String}

theorem mem_rankBand {byId : List (Candidate D)} {band : CandidateBand} {c : Candidate D}
    (h : c ∈ rankBand byId band) : c ∈ byId ∧ c.band = band := by
  simpa using List.mem_filter.mp (mem_of_mem_orderLimit _ h)

theorem filter_band_rankBand (byId : List (Candidate D)) (band band' : CandidateBand) :
    ((rankBand byId band).filter fun c => c.band = band')
      = if band = band' then rankBand byId band else [] := by
  split
  case isTrue heq =>
    refine List.filter_eq_self.mpr fun c hc => ?_
    simpa [heq] using (mem_rankBand hc).2
  case isFalse hne =>
    refine List.filter_eq_nil_iff.mpr fun c hc => ?_
    rw [(mem_rankBand hc).2]
    simpa using hne

/-- Hits that become candidates of a band. -/
def inBand (floors : Floors D) (excludeId : Option String) (band : CandidateBand)
    (hit : CandidateHit D) : Bool :=
  excludeId ≠ some hit.id && bandOf floors hit.distance = some band

/-- The candidate a vector hit becomes. -/
def CandidateHit.asBand (band : CandidateBand) (hit : CandidateHit D) : Candidate D :=
  hit.toCandidate hit.distance band

theorem bandOf_eq_duplicate_iff {d : D} :
    bandOf floors (some d) = some .duplicate ↔ d < floors.memoryDuplicateDistance := by
  by_cases hdup : d < floors.memoryDuplicateDistance
  · simp [bandOf, hdup]
  · by_cases hqa : d < floors.memoryMaxQaDistance <;> simp [bandOf, hdup, hqa]

theorem filter_band_vectorCandidates (floors : Floors D) (excludeId : Option String)
    (hits : List (CandidateHit D)) (band : CandidateBand) :
    ((vectorCandidates floors excludeId hits).filter fun c => c.band = band)
      = (hits.filter (inBand floors excludeId band)).map (CandidateHit.asBand band) := by
  induction hits with
  | nil => rfl
  | cons hit hits ih =>
    simp only [vectorCandidates] at ih ⊢
    by_cases hex : excludeId = some hit.id
    · rw [List.filter_cons_of_neg (by simpa using hex), ih,
        List.filter_cons_of_neg (by simp [inBand, hex])]
    · rw [List.filter_cons_of_pos (by simpa using hex)]
      cases hband : bandOf floors hit.distance with
      | none =>
        rw [List.filterMap_cons_none (by simp [hband]), ih,
          List.filter_cons_of_neg (by simp [inBand, hband])]
      | some b =>
        rw [List.filterMap_cons_some (by rw [hband, Option.map_some])]
        by_cases hb : b = band
        · subst hb
          rw [List.filter_cons_of_pos (by simp [CandidateHit.toCandidate]), ih,
            List.filter_cons_of_pos (by simp [inBand, hband, hex])]
          rfl
        · rw [List.filter_cons_of_neg (by simp [CandidateHit.toCandidate, hb]), ih,
            List.filter_cons_of_neg (by simp [inBand, hband, hb])]

theorem vectorCandidates_ids_sublist (floors : Floors D) (excludeId : Option String)
    (hits : List (CandidateHit D)) :
    ((vectorCandidates floors excludeId hits).map Candidate.id).Sublist
      (hits.map CandidateHit.id) := by
  have hmap : ∀ l : List (CandidateHit D), ((l.filterMap fun hit =>
      (bandOf floors hit.distance).map (hit.toCandidate hit.distance)).map Candidate.id).Sublist
        (l.map CandidateHit.id) := by
    intro l
    induction l with
    | nil => exact List.Sublist.slnil
    | cons hit l ih =>
      cases hband : bandOf floors hit.distance with
      | none =>
        rw [List.filterMap_cons_none (by simp [hband])]
        exact ih.cons _
      | some b =>
        rw [List.filterMap_cons_some (by rw [hband, Option.map_some])]
        exact ih.cons_cons _
  exact (hmap _).trans (List.filter_sublist.map _)

theorem foldl_orInsert_vectorCandidates (hids : (hits.map CandidateHit.id).Nodup) :
    (vectorCandidates floors excludeId hits).foldl orInsert []
      = vectorCandidates floors excludeId hits := by
  rw [foldl_orInsert_of_nodup, List.nil_append]
  rw [List.nil_append]
  exact hids.sublist (vectorCandidates_ids_sublist floors excludeId hits)

/-- The duplicate band is the five nearest of the vector hits below its floor. -/
theorem filter_duplicate_classifyCandidates (hids : (hits.map CandidateHit.id).Nodup)
    (ftsHits : List (CandidateHit D)) :
    ((classifyCandidates floors hits ftsHits excludeId).filter fun c => c.band = .duplicate)
      = orderLimit Candidate.key MAX_CANDIDATES_PER_BAND
          ((hits.filter (inBand floors excludeId .duplicate)).map
            (CandidateHit.asBand .duplicate)) := by
  have hfts : ∀ c ∈ ftsCandidates excludeId ftsHits, c.band ≠ .duplicate := by
    intro c hc
    obtain ⟨hit, -, rfl⟩ := List.mem_map.mp hc
    simp [CandidateHit.toCandidate]
  rw [classifyCandidates, List.filter_append, filter_band_rankBand, filter_band_rankBand,
    if_pos rfl, if_neg (by decide), List.append_nil, rankBand, filter_band_foldl_orInsert hfts,
    foldl_orInsert_vectorCandidates hids, filter_band_vectorCandidates]

/-! ## Pools without title hits -/

variable {pool pool' : List (CandidateHit D)}

/-- A hit makes no difference to a pool: it is in no band, or five of its band come
    before it. -/
def Crowded (floors : Floors D) (pool : List (CandidateHit D)) (hit : CandidateHit D) : Prop :=
  ∀ band, bandOf floors hit.distance = some band →
    MAX_CANDIDATES_PER_BAND ≤ pool.countP fun h =>
      bandOf floors h.distance = some band && (h.asBand band).key < (hit.asBand band).key

omit [LinearOrder D] in
theorem CandidateHit.asBand_injective (band : CandidateBand) :
    Function.Injective (CandidateHit.asBand (D := D) band) := by
  rintro ⟨id, kind, title, createdAt, distance⟩ ⟨id', kind', title', createdAt', distance'⟩ h
  simpa [CandidateHit.asBand, CandidateHit.toCandidate] using h

/-- Without title hits each band is ranked from the vector hits in it. -/
theorem classifyCandidates_nil {pool : List (CandidateHit D)}
    (hids : (pool.map CandidateHit.id).Nodup) :
    classifyCandidates floors pool [] none
      = rankBand (vectorCandidates floors none pool) .duplicate
        ++ rankBand (vectorCandidates floors none pool) .related := by
  rw [classifyCandidates, foldl_orInsert_vectorCandidates hids]
  rfl

/-- A longer pool ranks a band as a shorter one exactly when the hits it adds to the
    band come after five of those that were there. -/
theorem rankBand_eq_iff (floors : Floors D) (hids : (pool'.map CandidateHit.id).Nodup)
    (hsub : pool.Sublist pool') (band : CandidateBand) :
    rankBand (vectorCandidates floors none pool) band
        = rankBand (vectorCandidates floors none pool') band
      ↔ ∀ hit ∈ pool', hit ∉ pool → bandOf floors hit.distance = some band →
          MAX_CANDIDATES_PER_BAND ≤ pool.countP fun h =>
            bandOf floors h.distance = some band
              && (h.asBand band).key < (hit.asBand band).key := by
  have hband : ∀ hit : CandidateHit D,
      inBand floors none band hit = decide (bandOf floors hit.distance = some band) := by
    intro hit
    simp [inBand]
  -- the key ends in the id, which tells two hits of a pool apart
  have hkeys : (((pool'.filter (inBand floors none band)).map
      (CandidateHit.asBand band)).map Candidate.key).Nodup := by
    refine List.Nodup.of_map (fun key => (ofLex key).2) ?_
    rw [List.map_map, List.map_map]
    exact hids.sublist (List.filter_sublist.map _)
  have hcount : ∀ hit : CandidateHit D,
      ((pool.filter (inBand floors none band)).map (CandidateHit.asBand band)).countP
          (fun c => c.key < (hit.asBand band).key)
        = pool.countP fun h => bandOf floors h.distance = some band
            && (h.asBand band).key < (hit.asBand band).key := by
    intro hit
    rw [List.countP_map, List.countP_filter]
    refine List.countP_congr fun h _ => ?_
    simp [hband, and_comm]
  -- a band is a cut of the hits in it, so only the hits the larger pool adds count
  rw [rankBand, rankBand, filter_band_vectorCandidates, filter_band_vectorCandidates,
    orderLimit_eq_iff_of_sublist hkeys ((hsub.filter _).map _)]
  constructor
  · intro h hit hmem hout hin
    rw [← hcount]
    refine h _ (List.mem_map_of_mem (List.mem_filter.mpr ⟨hmem, by simpa [hband] using hin⟩)) ?_
    intro hmap
    have hfilter := (List.mem_map_of_injective (CandidateHit.asBand_injective band)).mp hmap
    exact hout (List.mem_filter.mp hfilter).1
  · intro h x hx hout
    obtain ⟨hit, hmem, rfl⟩ := List.mem_map.mp hx
    obtain ⟨hpool', hin⟩ := List.mem_filter.mp hmem
    rw [hcount]
    refine h hit hpool' (fun hpool => hout ?_) (by simpa [hband] using hin)
    exact List.mem_map_of_mem (List.mem_filter.mpr ⟨hpool, hin⟩)

/-- Of two pools of which one is part of the other, the candidates are the same
    exactly when the hits only the larger one has make no difference. -/
theorem classifyCandidates_eq_iff (floors : Floors D) (hids : (pool'.map CandidateHit.id).Nodup)
    (hsub : pool.Sublist pool') :
    classifyCandidates floors pool [] none = classifyCandidates floors pool' [] none
      ↔ ∀ hit ∈ pool', hit ∉ pool → Crowded floors pool hit := by
  rw [classifyCandidates_nil (hids.sublist (hsub.map _)), classifyCandidates_nil hids]
  have hbands := rankBand_eq_iff floors hids hsub
  constructor
  · intro h hit hmem hout band hin
    -- the candidates of one band are what that band was ranked to
    have hone : rankBand (vectorCandidates floors none pool) band
        = rankBand (vectorCandidates floors none pool') band := by
      have hfilter := congrArg (List.filter fun c => c.band = band) h
      cases band <;>
        simpa [List.filter_append, filter_band_rankBand] using hfilter
    exact (hbands band).mp hone hit hmem hout hin
  · intro h
    have hone : ∀ band, rankBand (vectorCandidates floors none pool) band
        = rankBand (vectorCandidates floors none pool') band := fun band =>
      (hbands band).mpr fun hit hmem hout hin => h hit hmem hout band hin
    rw [hone, hone]

end Inkentry
