/-
  Inkentry.CandidateBands

  What a pre-write check reports of a pool: the hits that clear a floor, each
  once and in one band, of every band the nearest.

  The pool the classifier collects is described by the two hit lists alone
  (`mem_byId_iff`); what a band keeps of it is `mem_rankBand_iff`, and since no
  two candidates share an id, the order in which the hits arrive does not show.
-/

import Inkentry.Candidates
import Mathlib.Algebra.Order.Ring.Rat
import Mathlib.Tactic.NormNum

namespace Inkentry

open OrderLimit

/-! ## The law -/

section Law

variable {D : Type*} [LinearOrder D] (floors : Floors D) (vectorHits ftsHits : List (CandidateHit D))
  (excludeId : Option String)

/-- The candidates two hit lists offer: a vector hit with the band of its distance, and a title hit
that no vector hit of its id puts into a band. -/
inductive Offered (c : Candidate D) : Prop where
  | vector (hit : CandidateHit D) (hmem : hit ∈ vectorHits) (hexclude : excludeId ≠ some hit.id)
      (band : CandidateBand) (hband : bandOf floors hit.distance = some band) (heq : c = hit.asBand band)
  | title (hit : CandidateHit D) (hmem : hit ∈ ftsHits) (hexclude : excludeId ≠ some hit.id)
      (hvector : ∀ h ∈ vectorHits, h.id = hit.id → bandOf floors h.distance = none)
      (heq : c = hit.toCandidate none .related)

/-- A distance below the duplicate floor. -/
def CandidateHit.IsDuplicate (hit : CandidateHit D) : Prop :=
  ∃ d, hit.distance = some d ∧ d < floors.memoryDuplicateDistance

/-- An id is reported as a duplicate exactly when its vector hit is one. -/
def DuplicatesReported : Prop :=
  ∀ id, (∃ c ∈ classifyCandidates floors vectorHits ftsHits excludeId, c.id = id ∧ c.band = .duplicate)
    ↔ ∃ hit ∈ vectorHits, hit.id = id ∧ hit.IsDuplicate floors

/-- Of the duplicates that are not excluded, the number that come before a hit. -/
def nearerDuplicates (hit : CandidateHit D) : ℕ :=
  vectorHits.countP fun h => inBand floors excludeId .duplicate h
    && (h.asBand .duplicate).key < (hit.asBand .duplicate).key

structure BandsLaw : Prop where
  duplicates : ∀ id,
    (∃ c ∈ classifyCandidates floors vectorHits ftsHits excludeId, c.id = id ∧ c.band = .duplicate)
      ↔ ∃ hit ∈ vectorHits, hit.id = id ∧ hit.IsDuplicate floors ∧ excludeId ≠ some id
          ∧ nearerDuplicates floors vectorHits excludeId hit < MAX_CANDIDATES_PER_BAND
  offered : ∀ c ∈ classifyCandidates floors vectorHits ftsHits excludeId,
    Offered floors vectorHits ftsHits excludeId c
  excluded : ∀ c ∈ classifyCandidates floors vectorHits ftsHits excludeId, excludeId ≠ some c.id
  once : ((classifyCandidates floors vectorHits ftsHits excludeId).map Candidate.id).Nodup
  capped : ∀ band, ((classifyCandidates floors vectorHits ftsHits excludeId).filter
    fun c => c.band = band).length ≤ MAX_CANDIDATES_PER_BAND
  nearest : ∀ c, Offered floors vectorHits ftsHits excludeId c →
    c ∉ classifyCandidates floors vectorHits ftsHits excludeId →
    ((classifyCandidates floors vectorHits ftsHits excludeId).filter
        fun kept => kept.band = c.band).length = MAX_CANDIDATES_PER_BAND
      ∧ ∀ kept ∈ classifyCandidates floors vectorHits ftsHits excludeId, kept.band = c.band →
          kept.key < c.key
  anyOrder : ∀ vectorHits' ftsHits', vectorHits'.Perm vectorHits → ftsHits'.Perm ftsHits →
    classifyCandidates floors vectorHits' ftsHits' excludeId
      = classifyCandidates floors vectorHits ftsHits excludeId

end Law

/-! ## The pool -/

section Pool

variable {D : Type*}

/-- Candidates of distinct ids are entered unless their id is taken. -/
theorem foldl_orInsert_eq {acc l : List (Candidate D)} (h : (l.map Candidate.id).Nodup) :
    l.foldl orInsert acc = acc ++ l.filter fun c => c.id ∉ acc.map Candidate.id := by
  induction l generalizing acc with
  | nil => rw [List.foldl_nil, List.filter_nil, List.append_nil]
  | cons c l ih =>
    obtain ⟨hfresh, hl⟩ := List.nodup_cons.mp h
    rw [List.foldl_cons, ih hl, orInsert]
    by_cases hc : c.id ∈ acc.map Candidate.id
    · rw [if_pos hc, List.filter_cons_of_neg (by simpa using hc)]
    · rw [if_neg hc, List.filter_cons_of_pos (by simpa using hc), List.append_assoc, List.singleton_append]
      -- the ids behind `c` are other ids than its own
      refine congrArg (acc ++ c :: ·) (List.filter_congr fun d hd => ?_)
      have hne : d.id ≠ c.id := fun heq => hfresh (heq ▸ List.mem_map_of_mem hd)
      rw [List.map_append, List.map_singleton]
      simp [hne]

variable [LinearOrder D] (floors : Floors D) (vectorHits ftsHits : List (CandidateHit D))
  (excludeId : Option String)

/-- `by_id`, when every hit has been entered. -/
def byId : List (Candidate D) :=
  (ftsCandidates excludeId ftsHits).foldl orInsert
    ((vectorCandidates floors excludeId vectorHits).foldl orInsert [])

variable {floors vectorHits ftsHits excludeId} {c : Candidate D}

theorem mem_vectorCandidates_iff : c ∈ vectorCandidates floors excludeId vectorHits
    ↔ ∃ hit ∈ vectorHits, excludeId ≠ some hit.id
        ∧ ∃ band, bandOf floors hit.distance = some band ∧ c = hit.asBand band := by
  rw [vectorCandidates, List.mem_filterMap]
  constructor
  · rintro ⟨hit, hhit, hc⟩
    obtain ⟨hmem, hexclude⟩ := List.mem_filter.mp hhit
    obtain ⟨band, hband, rfl⟩ := Option.map_eq_some_iff.mp hc
    exact ⟨hit, hmem, of_decide_eq_true hexclude, band, hband, rfl⟩
  · rintro ⟨hit, hmem, hexclude, band, hband, rfl⟩
    exact ⟨hit, List.mem_filter.mpr ⟨hmem, decide_eq_true hexclude⟩, by rw [hband]; rfl⟩

omit [LinearOrder D] in
theorem mem_ftsCandidates_iff : c ∈ ftsCandidates excludeId ftsHits
    ↔ ∃ hit ∈ ftsHits, excludeId ≠ some hit.id ∧ c = hit.toCandidate none .related := by
  rw [ftsCandidates, List.mem_map]
  constructor
  · rintro ⟨hit, hhit, rfl⟩
    obtain ⟨hmem, hexclude⟩ := List.mem_filter.mp hhit
    exact ⟨hit, hmem, of_decide_eq_true hexclude, rfl⟩
  · rintro ⟨hit, hmem, hexclude, rfl⟩
    exact ⟨hit, List.mem_filter.mpr ⟨hmem, decide_eq_true hexclude⟩, rfl⟩

omit [LinearOrder D] in
theorem ftsCandidates_ids_sublist (excludeId : Option String) (ftsHits : List (CandidateHit D)) :
    ((ftsCandidates excludeId ftsHits).map Candidate.id).Sublist (ftsHits.map CandidateHit.id) := by
  rw [ftsCandidates, List.map_map]
  exact List.filter_sublist.map CandidateHit.id

section Distinct

variable (hvector : (vectorHits.map CandidateHit.id).Nodup) (hfts : (ftsHits.map CandidateHit.id).Nodup)
include hvector hfts

theorem byId_eq : byId floors vectorHits ftsHits excludeId
    = vectorCandidates floors excludeId vectorHits
      ++ (ftsCandidates excludeId ftsHits).filter fun c =>
          c.id ∉ (vectorCandidates floors excludeId vectorHits).map Candidate.id := by
  rw [byId, foldl_orInsert_vectorCandidates hvector,
    foldl_orInsert_eq (hfts.sublist (ftsCandidates_ids_sublist excludeId ftsHits))]

theorem nodup_byId : ((byId floors vectorHits ftsHits excludeId).map Candidate.id).Nodup := by
  rw [byId_eq hvector hfts, List.map_append]
  refine List.Nodup.append (hvector.sublist (vectorCandidates_ids_sublist floors excludeId vectorHits))
    ((hfts.sublist (ftsCandidates_ids_sublist excludeId ftsHits)).sublist (List.filter_sublist.map _)) ?_
  intro id hid hid'
  obtain ⟨c, hc, rfl⟩ := List.mem_map.mp hid'
  exact absurd hid (of_decide_eq_true (List.mem_filter.mp hc).2)

theorem mem_byId_iff : c ∈ byId floors vectorHits ftsHits excludeId
    ↔ Offered floors vectorHits ftsHits excludeId c := by
  rw [byId_eq hvector hfts, List.mem_append, List.mem_filter, mem_vectorCandidates_iff,
    mem_ftsCandidates_iff]
  constructor
  · rintro (⟨hit, hmem, hexclude, band, hband, heq⟩ | ⟨⟨hit, hmem, hexclude, rfl⟩, htaken⟩)
    · exact .vector hit hmem hexclude band hband heq
    -- a title match counts only where no vector hit of its id is in a band
    · refine .title hit hmem hexclude (fun h hh hid => ?_) rfl
      by_contra hband
      obtain ⟨band, hband⟩ := Option.ne_none_iff_exists'.mp hband
      refine of_decide_eq_true htaken (List.mem_map.mpr ⟨h.asBand band, ?_, hid⟩)
      exact mem_vectorCandidates_iff.mpr ⟨h, hh, hid ▸ hexclude, band, hband, rfl⟩
  · rintro (⟨hit, hmem, hexclude, band, hband, heq⟩ | ⟨hit, hmem, hexclude, hnone, rfl⟩)
    · exact .inl ⟨hit, hmem, hexclude, band, hband, heq⟩
    · refine .inr ⟨⟨hit, hmem, hexclude, rfl⟩, decide_eq_true fun htaken => ?_⟩
      obtain ⟨c, hc, hid⟩ := List.mem_map.mp htaken
      obtain ⟨h, hh, -, band, hband, rfl⟩ := mem_vectorCandidates_iff.mp hc
      rw [hnone h hh hid] at hband
      cases hband

end Distinct

end Pool

/-! ## The bands -/

section Bands

variable {D : Type*} [LinearOrder D] {floors : Floors D} {vectorHits ftsHits : List (CandidateHit D)}
  {excludeId : Option String} {c : Candidate D} {l : List (Candidate D)}

omit [LinearOrder D] in
theorem nodup_keys (h : (l.map Candidate.id).Nodup) : (l.map Candidate.key).Nodup := by
  refine List.Nodup.of_map (fun key => (ofLex key).2) ?_
  rw [List.map_map]
  exact h

omit [LinearOrder D] in
theorem nodup_filter_ids (p : Candidate D → Bool) (h : (l.map Candidate.id).Nodup) :
    ((l.filter p).map Candidate.id).Nodup := h.sublist (List.filter_sublist.map _)

/-- A band keeps a candidate when fewer than five of the band come before it. -/
theorem mem_rankBand_iff (h : (l.map Candidate.id).Nodup) {band : CandidateBand} : c ∈ rankBand l band
    ↔ (c ∈ l ∧ c.band = band)
      ∧ (l.filter fun c => c.band = band).countP (fun a => a.key < c.key) < MAX_CANDIDATES_PER_BAND := by
  rw [rankBand, mem_orderLimit_iff (nodup_keys (nodup_filter_ids _ h)), List.mem_filter,
    decide_eq_true_eq]

theorem classify_eq : classifyCandidates floors vectorHits ftsHits excludeId
    = rankBand (byId floors vectorHits ftsHits excludeId) .duplicate
      ++ rankBand (byId floors vectorHits ftsHits excludeId) .related := rfl

theorem filter_band_classify (band : CandidateBand) :
    ((classifyCandidates floors vectorHits ftsHits excludeId).filter fun c => c.band = band)
      = rankBand (byId floors vectorHits ftsHits excludeId) band := by
  rw [classify_eq, List.filter_append, filter_band_rankBand, filter_band_rankBand]
  cases band with
  | duplicate => rw [if_pos rfl, if_neg (by decide), List.append_nil]
  | related => rw [if_neg (by decide), if_pos rfl, List.nil_append]

theorem mem_classify_iff : c ∈ classifyCandidates floors vectorHits ftsHits excludeId
    ↔ c ∈ rankBand (byId floors vectorHits ftsHits excludeId) c.band := by
  rw [← filter_band_classify, List.mem_filter, and_iff_left (decide_eq_true rfl)]

variable (hvector : (vectorHits.map CandidateHit.id).Nodup) (hfts : (ftsHits.map CandidateHit.id).Nodup)
include hvector

theorem filter_duplicate_byId : ((byId floors vectorHits ftsHits excludeId).filter
      fun c => c.band = .duplicate)
    = (vectorHits.filter (inBand floors excludeId .duplicate)).map (CandidateHit.asBand .duplicate) := by
  have hrelated : ∀ c ∈ ftsCandidates excludeId ftsHits, c.band ≠ .duplicate := by
    intro c hc
    obtain ⟨hit, -, -, rfl⟩ := mem_ftsCandidates_iff.mp hc
    exact fun h => by cases h
  rw [byId, filter_band_foldl_orInsert hrelated, foldl_orInsert_vectorCandidates hvector,
    filter_band_vectorCandidates]

theorem countP_nearer (hit : CandidateHit D) :
    ((byId floors vectorHits ftsHits excludeId).filter fun c => c.band = .duplicate).countP
        (fun a => a.key < (hit.asBand .duplicate).key)
      = nearerDuplicates floors vectorHits excludeId hit := by
  rw [filter_duplicate_byId hvector, List.countP_map, List.countP_filter, nearerDuplicates]
  refine List.countP_congr fun h _ => ?_
  simp [and_comm]

include hfts

theorem duplicates_iff (id : String) :
    (∃ c ∈ classifyCandidates floors vectorHits ftsHits excludeId, c.id = id ∧ c.band = .duplicate)
      ↔ ∃ hit ∈ vectorHits, hit.id = id ∧ hit.IsDuplicate floors ∧ excludeId ≠ some id
          ∧ nearerDuplicates floors vectorHits excludeId hit < MAX_CANDIDATES_PER_BAND := by
  have hdup : ∀ hit : CandidateHit D,
      bandOf floors hit.distance = some .duplicate ↔ hit.IsDuplicate floors := by
    intro hit
    cases hd : hit.distance with
    | none => simp [bandOf, CandidateHit.IsDuplicate, hd]
    | some d => simp [bandOf_eq_duplicate_iff, CandidateHit.IsDuplicate, hd]
  constructor
  · rintro ⟨c, hc, rfl, hband⟩
    rw [mem_classify_iff, hband, mem_rankBand_iff (nodup_byId hvector hfts), mem_byId_iff hvector hfts] at hc
    obtain ⟨⟨hoffered, -⟩, hcount⟩ := hc
    rcases hoffered with ⟨hit, hmem, hexclude, band, hin, rfl⟩ | ⟨hit, -, -, -, rfl⟩
    · obtain rfl : band = .duplicate := hband
      rw [countP_nearer hvector] at hcount
      exact ⟨hit, hmem, rfl, (hdup hit).mp hin, hexclude, hcount⟩
    -- a title match is never a duplicate
    · cases hband
  · rintro ⟨hit, hmem, rfl, hduplicate, hexclude, hcount⟩
    refine ⟨hit.asBand .duplicate, mem_classify_iff.mpr ?_, rfl, rfl⟩
    refine (mem_rankBand_iff (nodup_byId hvector hfts)).mpr ⟨⟨?_, rfl⟩, ?_⟩
    · exact (mem_byId_iff hvector hfts).mpr
        (.vector hit hmem hexclude .duplicate ((hdup hit).mpr hduplicate) rfl)
    · exact (countP_nearer hvector hit).symm ▸ hcount

/-- A candidate that is left out has a full band before it. -/
theorem nearest_of_offered (hc : Offered floors vectorHits ftsHits excludeId c)
    (hout : c ∉ classifyCandidates floors vectorHits ftsHits excludeId) :
    ((classifyCandidates floors vectorHits ftsHits excludeId).filter
        fun kept => kept.band = c.band).length = MAX_CANDIDATES_PER_BAND
      ∧ ∀ kept ∈ classifyCandidates floors vectorHits ftsHits excludeId, kept.band = c.band →
          kept.key < c.key := by
  have hids : ((byId floors vectorHits ftsHits excludeId).map Candidate.id).Nodup :=
    nodup_byId hvector hfts
  rw [mem_classify_iff] at hout
  have hmem : c ∈ (byId floors vectorHits ftsHits excludeId).filter fun a => a.band = c.band :=
    List.mem_filter.mpr ⟨(mem_byId_iff hvector hfts).mpr hc, decide_eq_true rfl⟩
  constructor
  -- a band with room would have kept it
  · rw [filter_band_classify]
    refine le_antisymm ?_ (not_lt.mp fun hlt => hout (mem_orderLimit_of_length_lt Candidate.key hlt hmem))
    rw [rankBand, length_orderLimit]
    exact min_le_left _ _
  · intro kept hkept hband
    rw [mem_classify_iff, hband] at hkept
    refine lt_of_le_of_ne (le_of_not_mem_orderLimit Candidate.key hkept hmem hout) fun heq => hout ?_
    have hsame : kept = c := List.inj_on_of_nodup_map (nodup_keys hids) (mem_rankBand hkept).1
      (List.mem_filter.mp hmem).1 heq
    exact hsame ▸ hkept

theorem classify_perm {vectorHits' ftsHits' : List (CandidateHit D)}
    (hv : vectorHits'.Perm vectorHits) (hf : ftsHits'.Perm ftsHits) :
    classifyCandidates floors vectorHits' ftsHits' excludeId
      = classifyCandidates floors vectorHits ftsHits excludeId := by
  have hvector' := (hv.map CandidateHit.id).nodup_iff.mpr hvector
  have hfts' := (hf.map CandidateHit.id).nodup_iff.mpr hfts
  have hids : ((byId floors vectorHits' ftsHits' excludeId).map Candidate.id).Nodup :=
    nodup_byId hvector' hfts'
  have hids' : ((byId floors vectorHits ftsHits excludeId).map Candidate.id).Nodup :=
    nodup_byId hvector hfts
  have hmono : ∀ {v v' f f' : List (CandidateHit D)} {c : Candidate D}, v.Perm v' → f.Perm f' →
      Offered floors v f excludeId c → Offered floors v' f' excludeId c := by
    rintro v v' f f' c hv hf
      (⟨hit, hmem, hexclude, band, hband, heq⟩ | ⟨hit, hmem, hexclude, hnone, heq⟩)
    · exact .vector hit (hv.mem_iff.mp hmem) hexclude band hband heq
    · exact .title hit (hf.mem_iff.mp hmem) hexclude (fun h hh => hnone h (hv.mem_iff.mpr hh)) heq
  have hoffered : ∀ c, Offered floors vectorHits' ftsHits' excludeId c
      ↔ Offered floors vectorHits ftsHits excludeId c := fun c => ⟨hmono hv hf, hmono hv.symm hf.symm⟩
  -- the same candidates come in, and no two of them have one key
  have hperm : (byId floors vectorHits' ftsHits' excludeId).Perm
      (byId floors vectorHits ftsHits excludeId) := by
    refine (List.perm_ext_iff_of_nodup hids.of_map hids'.of_map).mpr fun c => ?_
    rw [mem_byId_iff hvector' hfts', mem_byId_iff hvector hfts, hoffered]
  have hband : ∀ band, rankBand (byId floors vectorHits' ftsHits' excludeId) band
      = rankBand (byId floors vectorHits ftsHits excludeId) band := by
    intro band
    rw [rankBand, rankBand, orderLimit, orderLimit, sortBy_eq_of_perm Candidate.key (hperm.filter _)]
    intro a ha b hb heq
    exact List.inj_on_of_nodup_map (nodup_keys hids) (List.mem_filter.mp ha).1 (List.mem_filter.mp hb).1 heq
  rw [classify_eq, classify_eq, hband, hband]

theorem bandsLaw : BandsLaw floors vectorHits ftsHits excludeId := by
  have hids : ((byId floors vectorHits ftsHits excludeId).map Candidate.id).Nodup :=
    nodup_byId hvector hfts
  have hoffered : ∀ c ∈ classifyCandidates floors vectorHits ftsHits excludeId,
      Offered floors vectorHits ftsHits excludeId c := fun c hc =>
    (mem_byId_iff hvector hfts).mp (mem_rankBand (mem_classify_iff.mp hc)).1
  refine ⟨duplicates_iff hvector hfts, hoffered, fun c hc => ?_, ?_, fun band => ?_,
    fun c => nearest_of_offered hvector hfts, fun _ _ => classify_perm hvector hfts⟩
  · rcases hoffered c hc with ⟨hit, -, hexclude, band, -, rfl⟩ | ⟨hit, -, hexclude, -, rfl⟩
    · exact hexclude
    · exact hexclude
  · -- a band is part of the pool, and no candidate is in two bands
    have hpart : ∀ band, ((rankBand (byId floors vectorHits ftsHits excludeId) band).map
        Candidate.id).Nodup := fun band =>
      (((sortBy_perm Candidate.key _).map Candidate.id).nodup_iff.mpr
        (nodup_filter_ids _ hids)).sublist ((List.take_sublist _ _).map _)
    rw [classify_eq, List.map_append]
    refine (hpart .duplicate).append (hpart .related) fun id hid hid' => ?_
    obtain ⟨c, hc, rfl⟩ := List.mem_map.mp hid
    obtain ⟨c', hc', heq⟩ := List.mem_map.mp hid'
    obtain rfl := List.inj_on_of_nodup_map hids (mem_rankBand hc').1 (mem_rankBand hc).1 heq
    have hband := (mem_rankBand hc).2
    rw [(mem_rankBand hc').2] at hband
    cases hband
  · rw [filter_band_classify, rankBand, length_orderLimit]
    exact min_le_left _ _

end Bands

/-! ## The shipped floors -/

def MEMORY_DUPLICATE_DISTANCE : ℚ := 15 / 100

def MEMORY_MAX_QA_DISTANCE : ℚ := 12032 / 10000

/-- The floors every caller classifies with. -/
def memoryFloors : Floors ℚ := ⟨MEMORY_DUPLICATE_DISTANCE, MEMORY_MAX_QA_DISTANCE⟩

/-- What is reported of two lists of hits, each of distinct ids. -/
theorem classifyCandidates_law (vectorHits ftsHits : List (CandidateHit ℚ)) (excludeId : Option String)
    (hvector : (vectorHits.map CandidateHit.id).Nodup) (hfts : (ftsHits.map CandidateHit.id).Nodup) :
    BandsLaw memoryFloors vectorHits ftsHits excludeId := bandsLaw hvector hfts

/-- Six restatements of one entry. -/
def restatements : List (CandidateHit ℚ) :=
  ["a", "b", "c", "d", "e", "f"].map fun id => ⟨id, "decision", "Use WAL mode", 0, some 0⟩

theorem classifyCandidates_law_restatements : BandsLaw memoryFloors restatements restatements none :=
  classifyCandidates_law restatements restatements none (by decide) (by decide)

/-- The sixth is not reported. -/
theorem not_duplicatesReported : ¬DuplicatesReported memoryFloors restatements [] none := by
  intro h
  obtain ⟨c, hc, hid, -⟩ := (h "f").mpr ⟨⟨"f", "decision", "Use WAL mode", 0, some 0⟩,
    by simp [restatements], rfl, 0, rfl, by norm_num [memoryFloors, MEMORY_DUPLICATE_DISTANCE]⟩
  have hids : (classifyCandidates memoryFloors restatements [] none).map Candidate.id
      = ["a", "b", "c", "d", "e"] := by decide +kernel
  have hmem : "f" ∈ ["a", "b", "c", "d", "e"] := hids ▸ hid ▸ List.mem_map_of_mem hc
  exact absurd hmem (by decide)

end Inkentry
