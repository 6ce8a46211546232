/-
  Inkentry.Memory.SearchCompleteness

  What a semantic search over the local store misses.  The index is cut to the
  nearest `limit` vectors before the join looks at status or validity, and
  archiving leaves a row's vector in the index, so archived entries take places
  that active ones then do not get.

  `EmbeddedStore.embedded` is the whole index as rows with distances; what a
  query should return is stated over it.  Each of the four queries is compared
  with that, and each comparison comes down to whether the cut kept what the
  filter keeps (`NearestCut.isNearest_filter_iff`).
-/

import Inkentry.Lib.Runs
import Inkentry.Memory.Search

namespace Inkentry
namespace Memory

open Runs OrderLimit NearestCut

variable {Vec D : Type*} [LinearOrder D]

/-! ## The index as rows -/

variable {s : EmbeddedStore Vec}
variable {knn : Knn Vec D} {h : Hit D}

/-- Every entry that has a vector, with its distance to the query. -/
def EmbeddedStore.embedded (knn : Knn Vec D) (s : EmbeddedStore Vec) (query : Vec) :
    List (Hit D) :=
  (s.vectors.map fun e => (e.1, knn.distance query e.2)).filterMap s.join

theorem EmbeddedStore.join_eq_some_iff {k : NoteId × D} :
    s.join k = some h ↔ h.note ∈ s.store.rows ∧ h.note.id = k.1 ∧ h.distance = k.2 := by
  rw [EmbeddedStore.join, Option.map_eq_some_iff]
  constructor
  · rintro ⟨n, hn, rfl⟩
    exact ⟨(Store.row?_eq_some_iff.mp hn).1, (Store.row?_eq_some_iff.mp hn).2, rfl⟩
  · rintro ⟨hmem, hid, hd⟩
    refine ⟨h.note, Store.row?_eq_some_iff.mpr ⟨hmem, hid⟩, ?_⟩
    rw [← hd]

theorem EmbeddedStore.join_injective {k k' : NoteId × D} (hk : s.join k = some h)
    (hk' : s.join k' = some h) : k = k' := by
  obtain ⟨-, hid, hd⟩ := join_eq_some_iff.mp hk
  obtain ⟨-, hid', hd'⟩ := join_eq_some_iff.mp hk'
  exact Prod.ext (hid.symm.trans hid') (hd.symm.trans hd')

theorem EmbeddedStore.join_isSome {e : NoteId × Vec} (he : e ∈ s.vectors)
    (d : D) : (s.join (e.1, d)).isSome := by
  rw [EmbeddedStore.join, Option.isSome_map]
  exact s.rowsExist e he

theorem EmbeddedStore.distances_nodup (knn : Knn Vec D) (s : EmbeddedStore Vec) (query : Vec) :
    (s.vectors.map fun e => (e.1, knn.distance query e.2)).Nodup := by
  refine List.Nodup.of_map Prod.fst ?_
  rw [List.map_map]
  exact s.vectorUnique

theorem EmbeddedStore.embedded_nodup (knn : Knn Vec D) (s : EmbeddedStore Vec) (query : Vec) :
    (s.embedded knn query).Nodup :=
  (s.distances_nodup knn query).filterMap fun _ _ _ h h' => join_injective h h'

theorem EmbeddedStore.eq_of_mem_embedded {query : Vec} {h h' : Hit D}
    (hh : h ∈ s.embedded knn query) (hh' : h' ∈ s.embedded knn query)
    (hid : h.note.id = h'.note.id) : h = h' := by
  obtain ⟨k, hk, hj⟩ := List.mem_filterMap.mp hh
  obtain ⟨k', hk', hj'⟩ := List.mem_filterMap.mp hh'
  obtain ⟨e, he, rfl⟩ := List.mem_map.mp hk
  obtain ⟨e', he', rfl⟩ := List.mem_map.mp hk'
  obtain ⟨-, hide, -⟩ := join_eq_some_iff.mp hj
  obtain ⟨-, hide', -⟩ := join_eq_some_iff.mp hj'
  have hkey : e.1 = e'.1 := by rw [← hide, ← hide', hid]
  have hee : e = e' := List.inj_on_of_nodup_map s.vectorUnique he he' hkey
  subst hee
  exact Option.some.inj (hj.symm.trans hj')

/-- The rows a query starts from are the nearest of all that have a vector. -/
theorem EmbeddedStore.isNearest_knnRows (knn : Knn Vec D) (s : EmbeddedStore Vec) (query : Vec)
    (k : Nat) : IsNearest Hit.distance k (s.embedded knn query) (s.knnRows knn query k) := by
  refine (knn.isNearest query k s.vectors s.vectorUnique).filterMap ?_
    (fun _ _ _ h h' => join_injective h h') fun _ _ h => (join_eq_some_iff.mp h).2.2
  intro p hp
  obtain ⟨e, he, rfl⟩ := List.mem_map.mp hp
  exact join_isSome he _

/-! ## Search -/

/-- The hits a search for `asOf` may return. -/
def isLive (asOf : Option Int) (h : Hit D) : Bool := liveAt asOf h.note

/-- A search returns the nearest of the entries it is for, in order. -/
def SearchComplete (knn : Knn Vec D) (s : EmbeddedStore Vec) (query : Vec) (limit : Nat)
    (asOf : Option Int) : Prop :=
  IsNearest Hit.distance (min limit MAX_SEARCH_LIMIT)
      ((s.embedded knn query).filter (isLive asOf)) (s.search knn query limit asOf)
    ∧ (s.search knn query limit asOf).Pairwise fun h h' => h.key ≤ h'.key

/-- The cut of the index took every live entry, or nothing but live ones. -/
def CutKeepsLive (knn : Knn Vec D) (s : EmbeddedStore Vec) (query : Vec) (limit : Nat)
    (asOf : Option Int) : Prop :=
  (∀ h ∈ s.embedded knn query, isLive asOf h = true →
      h ∈ s.knnRows knn query (min limit MAX_SEARCH_LIMIT))
    ∨ ∀ h ∈ s.knnRows knn query (min limit MAX_SEARCH_LIMIT), isLive asOf h = true

theorem EmbeddedStore.search_perm (knn : Knn Vec D) (s : EmbeddedStore Vec) (query : Vec)
    (limit : Nat) (asOf : Option Int) :
    (s.search knn query limit asOf).Perm
      ((s.knnRows knn query (min limit MAX_SEARCH_LIMIT)).filter (isLive asOf)) :=
  sortBy_perm Hit.key _

theorem EmbeddedStore.mem_search {query : Vec} {limit : Nat} {asOf : Option Int} :
    h ∈ s.search knn query limit asOf
      ↔ h ∈ s.knnRows knn query (min limit MAX_SEARCH_LIMIT) ∧ isLive asOf h = true := by
  rw [(s.search_perm knn query limit asOf).mem_iff, List.mem_filter]

theorem searchComplete_iff (knn : Knn Vec D) (s : EmbeddedStore Vec) (query : Vec) (limit : Nat)
    (asOf : Option Int) :
    SearchComplete knn s query limit asOf ↔ CutKeepsLive knn s query limit asOf := by
  have hsorted : (s.search knn query limit asOf).Pairwise fun h h' => h.key ≤ h'.key :=
    sortBy_pairwise Hit.key _
  rw [SearchComplete, and_iff_left hsorted, CutKeepsLive]
  exact isNearest_filter_iff_of_perm (s.embedded_nodup knn query) (s.isNearest_knnRows knn query _)
    (s.search_perm knn query limit asOf)

/-! ## Candidates -/

/-- Active entries below the duplicate floor, the one that asks left out. -/
def isActiveDuplicate (floors : Floors D) (excludeId : Option NoteId) (h : Hit D) : Bool :=
  isLive none h && (excludeId ≠ some h.note.id && h.distance < floors.memoryDuplicateDistance)

/-- The candidate a duplicate is reported as. -/
def Hit.asDuplicate (h : Hit D) : Candidate D := h.toCandidateHit.asBand .duplicate

/-- The duplicate band holds the nearest of the active duplicates, up to its cap. -/
def ReportsDuplicates (knn : Knn Vec D) (floors : Floors D) (s : EmbeddedStore Vec)
    (embedding : Option Vec) (titleMatches : List Note) (excludeId : Option NoteId) : Prop :=
  ∀ blob ∈ embedding,
    IsNearest Candidate.distanceKey MAX_CANDIDATES_PER_BAND
      (((s.embedded knn blob).filter (isActiveDuplicate floors excludeId)).map Hit.asDuplicate)
      ((s.findCandidates knn floors embedding titleMatches excludeId).filter fun c =>
        c.band = .duplicate)

/-- The pool took every active duplicate, or enough of them to fill the band. -/
def PoolKeepsDuplicates (knn : Knn Vec D) (floors : Floors D) (s : EmbeddedStore Vec)
    (embedding : Option Vec) (excludeId : Option NoteId) : Prop :=
  ∀ blob ∈ embedding,
    (∀ h ∈ s.embedded knn blob, isActiveDuplicate floors excludeId h = true →
        h ∈ s.knnRows knn blob CANDIDATE_POOL)
      ∨ MAX_CANDIDATES_PER_BAND
          ≤ ((s.knnRows knn blob CANDIDATE_POOL).filter (isActiveDuplicate floors excludeId)).length

theorem inBand_duplicate_toCandidateHit (floors : Floors D) (excludeId : Option NoteId)
    (h : Hit D) :
    inBand floors (excludeId.map NoteId.token) .duplicate h.toCandidateHit
      = (excludeId ≠ some h.note.id && h.distance < floors.memoryDuplicateDistance) := by
  have hid : excludeId.map NoteId.token = some h.note.id.token ↔ excludeId = some h.note.id := by
    cases excludeId with
    | none => simp
    | some id => simp [NoteId.token_inj]
  simp only [inBand, Hit.toCandidateHit, bandOf_eq_duplicate_iff, ne_eq, hid]

theorem Hit.asDuplicate_key_le_iff (h h' : Hit D) :
    h.asDuplicate.key ≤ h'.asDuplicate.key ↔ h.key ≤ h'.key := by
  show toLex ((h.distance : WithTop D), h.note.id.token)
      ≤ toLex ((h'.distance : WithTop D), h'.note.id.token) ↔ _
  simp only [Hit.key, Prod.Lex.toLex_le_toLex, WithTop.coe_lt_coe, WithTop.coe_inj]

theorem Hit.asDuplicate_distanceKey_le_iff (h h' : Hit D) :
    h.asDuplicate.distanceKey ≤ h'.asDuplicate.distanceKey ↔ h.distance ≤ h'.distance :=
  WithTop.coe_le_coe

theorem Hit.distance_le_of_key_le (h h' : Hit D) (hle : h.key ≤ h'.key) :
    h.distance ≤ h'.distance := by
  rcases Prod.Lex.le_iff.mp hle with hlt | heq
  · exact le_of_lt hlt
  · exact le_of_eq heq.1

theorem EmbeddedStore.search_tokens_nodup (knn : Knn Vec D) (s : EmbeddedStore Vec) (query : Vec)
    (limit : Nat) (asOf : Option Int) :
    (((s.search knn query limit asOf).map Hit.toCandidateHit).map CandidateHit.id).Nodup := by
  rw [List.map_map]
  have hcut := s.isNearest_knnRows knn query (min limit MAX_SEARCH_LIMIT)
  have hnodup : (s.search knn query limit asOf).Nodup :=
    (s.search_perm knn query limit asOf).nodup_iff.mpr (hcut.nodup.filter _)
  refine hnodup.map_on fun h hh h' hh' heq => ?_
  have hid : h.note.id = h'.note.id := NoteId.token_inj.mp heq
  exact s.eq_of_mem_embedded (hcut.subset h (mem_search.mp hh).1)
    (hcut.subset h' (mem_search.mp hh').1) hid

/-- The duplicates reported are the nearest of the duplicates in the pool. -/
theorem EmbeddedStore.filter_duplicate_findCandidates (knn : Knn Vec D) (floors : Floors D)
    (s : EmbeddedStore Vec) (blob : Vec) (titleMatches : List Note) (excludeId : Option NoteId) :
    ((s.findCandidates knn floors (some blob) titleMatches excludeId).filter fun c =>
        c.band = .duplicate)
      = (orderLimit Hit.key MAX_CANDIDATES_PER_BAND
          ((s.search knn blob CANDIDATE_POOL none).filter
            (isActiveDuplicate floors excludeId))).map Hit.asDuplicate := by
  have hfilter : ((s.search knn blob CANDIDATE_POOL none).filter
        (inBand floors (excludeId.map NoteId.token) .duplicate ∘ Hit.toCandidateHit))
      = (s.search knn blob CANDIDATE_POOL none).filter (isActiveDuplicate floors excludeId) := by
    refine List.filter_congr fun h hh => ?_
    rw [Function.comp_apply, inBand_duplicate_toCandidateHit, isActiveDuplicate,
      (mem_search.mp hh).2, Bool.true_and]
  rw [EmbeddedStore.findCandidates,
    filter_duplicate_classifyCandidates (s.search_tokens_nodup knn blob _ none),
    List.filter_map, hfilter, List.map_map]
  exact orderLimit_map Hit.key Hit.asDuplicate_key_le_iff _ _

theorem reportsDuplicates_iff (knn : Knn Vec D) (floors : Floors D) (s : EmbeddedStore Vec)
    (embedding : Option Vec) (titleMatches : List Note) (excludeId : Option NoteId) :
    ReportsDuplicates knn floors s embedding titleMatches excludeId
      ↔ PoolKeepsDuplicates knn floors s embedding excludeId := by
  refine forall_congr' fun blob => imp_congr_right fun hblob => ?_
  obtain rfl := Option.mem_def.mp hblob
  have hcut := s.isNearest_knnRows knn blob CANDIDATE_POOL
  -- the pool is the cut's active rows, so its duplicates are the cut's
  have hpool : ((s.search knn blob CANDIDATE_POOL none).filter
        (isActiveDuplicate floors excludeId)).Perm
      ((s.knnRows knn blob CANDIDATE_POOL).filter (isActiveDuplicate floors excludeId)) := by
    refine ((s.search_perm knn blob CANDIDATE_POOL none).filter _).trans (.of_eq ?_)
    rw [List.filter_filter]
    refine List.filter_congr fun h _ => ?_
    cases hlive : isLive none h <;> simp [isActiveDuplicate, hlive]
  have hout := (isNearest_orderLimit Hit.distance_le_of_key_le MAX_CANDIDATES_PER_BAND
    (hpool.nodup_iff.mpr (hcut.nodup.filter _))).congr_pool hpool
  rw [s.filter_duplicate_findCandidates,
    isNearest_map_iff ?_ ?_ Hit.asDuplicate_distanceKey_le_iff]
  · exact isNearest_filter_iff (s.embedded_nodup knn blob) hcut hout
  · intro h hh h' hh' heq
    have hid : h.note.id.token = h'.note.id.token := congrArg Candidate.id heq
    exact s.eq_of_mem_embedded (List.mem_of_mem_filter hh) (List.mem_of_mem_filter hh')
      (NoteId.token_inj.mp hid)
  · intro h hh
    exact hcut.filter_subperm.subset (hout.subset h hh)

/-! ## Harvest -/

/-- Harvest skips an entry exactly when an active one is a duplicate of it. -/
def HarvestFinds (knn : Knn Vec D) (floors : Floors D) (s : EmbeddedStore Vec) (blob : Vec) :
    Prop :=
  s.harvestSkips knn floors blob = true
    ↔ ∃ h ∈ s.embedded knn blob, isActiveDuplicate floors none h = true

/-- No active entry is a duplicate, or the nearest of all entries is active. -/
def NearestIsActive (knn : Knn Vec D) (floors : Floors D) (s : EmbeddedStore Vec) (blob : Vec) :
    Prop :=
  (∀ h ∈ s.embedded knn blob, isActiveDuplicate floors none h = false)
    ∨ ∀ h ∈ s.knnRows knn blob 1, isLive none h = true

theorem isDuplicateBand_iff (floors : Floors D) (top : Hit D) :
    isDuplicateBand floors top = true ↔ top.distance < floors.memoryDuplicateDistance := by
  by_cases hdup : top.distance < floors.memoryDuplicateDistance
  · simp [isDuplicateBand, classifyCandidates, vectorCandidates, ftsCandidates, bandOf, rankBand,
      orderLimit, sortBy, orInsert, Hit.toCandidateHit, CandidateHit.toCandidate,
      MAX_CANDIDATES_PER_BAND, hdup]
  · by_cases hqa : top.distance < floors.memoryMaxQaDistance <;>
    simp [isDuplicateBand, classifyCandidates, vectorCandidates, ftsCandidates, bandOf, rankBand,
      orderLimit, sortBy, orInsert, Hit.toCandidateHit, CandidateHit.toCandidate,
      MAX_CANDIDATES_PER_BAND, hdup, hqa]

/-- The check looks at the nearest row the search returned, so it sees a duplicate
    when there is one among them. -/
theorem harvestSkips_iff {floors : Floors D} {blob : Vec} :
    s.harvestSkips knn floors blob = true
      ↔ ∃ h ∈ s.knnRows knn blob 1, isActiveDuplicate floors none h = true := by
  have hmem : ∀ h, h ∈ s.search knn blob 1 none ∧ h.distance < floors.memoryDuplicateDistance
      ↔ h ∈ s.knnRows knn blob 1 ∧ isActiveDuplicate floors none h = true := by
    intro h
    rw [EmbeddedStore.mem_search, and_assoc]
    simp [isActiveDuplicate, MAX_SEARCH_LIMIT]
  have hsorted : (s.search knn blob 1 none).Pairwise fun h h' => h.key ≤ h'.key :=
    sortBy_pairwise Hit.key _
  simp only [← hmem, EmbeddedStore.harvestSkips]
  cases hs : s.search knn blob 1 none with
  | nil => simp
  | cons top rest =>
    rw [hs] at hsorted
    simp only [isDuplicateBand_iff]
    constructor
    · exact fun htop => ⟨top, List.mem_cons_self, htop⟩
    · rintro ⟨h, hh, hd⟩
      rcases List.mem_cons.mp hh with rfl | hrest
      · exact hd
      · have hle := List.rel_of_pairwise_cons hsorted hrest
        exact lt_of_le_of_lt (Hit.distance_le_of_key_le top h hle) hd

theorem harvestFinds_iff (knn : Knn Vec D) (floors : Floors D) (s : EmbeddedStore Vec)
    (blob : Vec) : HarvestFinds knn floors s blob ↔ NearestIsActive knn floors s blob := by
  have hcut := s.isNearest_knnRows knn blob 1
  rw [HarvestFinds, harvestSkips_iff, NearestIsActive]
  constructor
  · intro hiff
    by_cases hany : ∃ h ∈ s.embedded knn blob, isActiveDuplicate floors none h = true
    · obtain ⟨top, htop, hdup⟩ := hiff.mpr hany
      refine .inr fun h hh => ?_
      rw [hcut.eq_of_mem_one hh htop]
      exact (Bool.and_eq_true_iff.mp hdup).1
    · exact .inl fun h hh => Bool.eq_false_iff.mpr fun hdup => hany ⟨h, hh, hdup⟩
  · rintro (hnone | hactive)
    · constructor
      · rintro ⟨h, hh, hdup⟩
        exact absurd hdup (by simp [hnone h (hcut.subset h hh)])
      · rintro ⟨h, hh, hdup⟩
        exact absurd hdup (by simp [hnone h hh])
    · constructor
      · rintro ⟨h, hh, hdup⟩
        exact ⟨h, hcut.subset h hh, hdup⟩
      · rintro ⟨h, hh, hdup⟩
        -- the nearest row is active and at least as near as the duplicate
        obtain ⟨top, htop⟩ := hcut.exists_mem Nat.one_pos hh
        have hle := hcut.le_of_mem_one htop hh
        have hd : h.distance < floors.memoryDuplicateDistance := by
          simpa [isActiveDuplicate] using (Bool.and_eq_true_iff.mp hdup).2
        refine ⟨top, htop, ?_⟩
        simp [isActiveDuplicate, hactive top htop, lt_of_le_of_lt hle hd]

/-! ## The metric -/

/-- Another active entry within the threshold. -/
def isActiveNeighbour (threshold : D) (n : Note) (h : Hit D) : Bool :=
  isLive none h && isNearDuplicateOf threshold n h

/-- The metric counts every active entry that has another one within the threshold. -/
def CountsNearDuplicates (knn : Knn Vec D) (threshold : D) (s : EmbeddedStore Vec) : Prop :=
  (s.nearDuplicateRate knn threshold).numerator
    = s.withVector.countP fun e => (s.embedded knn e.2).any (isActiveNeighbour threshold e.1)

/-- Each of these has one among the rows its own query starts from. -/
def NeighboursInReach (knn : Knn Vec D) (threshold : D) (s : EmbeddedStore Vec) : Prop :=
  ∀ e ∈ s.withVector, (s.embedded knn e.2).any (isActiveNeighbour threshold e.1) = true →
    (s.knnRows knn e.2 NEAR_DUPLICATE_K).any (isActiveNeighbour threshold e.1) = true

/-- Of two counts of which one implies the other, equality is the converse. -/
theorem countP_eq_countP_iff {α : Type*} {p q : α → Bool} {l : List α}
    (himp : ∀ a ∈ l, p a = true → q a = true) :
    l.countP p = l.countP q ↔ ∀ a ∈ l, q a = true → p a = true := by
  induction l with
  | nil => simp
  | cons a l ih =>
    have hle : l.countP p ≤ l.countP q :=
      List.countP_mono_left fun b hb => himp b (List.mem_cons_of_mem a hb)
    have ih := ih fun b hb => himp b (List.mem_cons_of_mem a hb)
    have ha := himp a List.mem_cons_self
    rw [List.forall_mem_cons, ← ih]
    cases hp : p a <;> cases hq : q a <;> simp_all [List.countP_cons]
    omega

theorem search_any_isNearDuplicateOf (knn : Knn Vec D) (threshold : D) (s : EmbeddedStore Vec)
    (n : Note) (blob : Vec) :
    (s.search knn blob NEAR_DUPLICATE_K none).any (isNearDuplicateOf threshold n)
      = (s.knnRows knn blob NEAR_DUPLICATE_K).any (isActiveNeighbour threshold n) := by
  rw [Bool.eq_iff_iff, List.any_eq_true, List.any_eq_true]
  refine exists_congr fun h => ?_
  rw [EmbeddedStore.mem_search, isActiveNeighbour, Bool.and_eq_true, and_assoc]
  rfl

theorem countsNearDuplicates_iff (knn : Knn Vec D) (threshold : D) (s : EmbeddedStore Vec) :
    CountsNearDuplicates knn threshold s ↔ NeighboursInReach knn threshold s := by
  rw [CountsNearDuplicates, NeighboursInReach, ← countP_eq_countP_iff]
  · simp only [EmbeddedStore.nearDuplicateRate, search_any_isNearDuplicateOf]
  · intro e _ hany
    obtain ⟨h, hh, hnear⟩ := List.any_eq_true.mp hany
    exact List.any_eq_true.mpr ⟨h, (s.isNearest_knnRows knn e.2 _).subset h hh, hnear⟩

/-! ## Histories -/

/-- What happens to a store, and what it is asked on the way. -/
inductive SearchEvent (Vec : Type*) where
  | write (op : LocalWrite)
  | add (uuid : NoteId) (now : Int) (input : RowInput) (embedding : Option Vec)
      (origin : Option Origin)
  | addSuperseding (uuid : NoteId) (now sqlNow : Int) (input : RowInput) (oldId : NoteId)
      (embedding : Option Vec) (origin : Option Origin)
  | embed (id : NoteId) (blob : Vec)
  | reindex (embedText : String → Option Vec) (force includeArchived : Bool)
  | search (query : Vec) (limit : Nat) (asOf : Option Int)
  | findCandidates (embedding : Option Vec) (titleMatches : List Note) (excludeId : Option NoteId)
  | harvestCheck (blob : Vec)
  | nearDuplicateRate

/-- A query leaves the store as it is, and so does a vector that cannot be stored. -/
def EmbeddedStore.step (env : StoreEnv) (s : EmbeddedStore Vec) :
    SearchEvent Vec → EmbeddedStore Vec
  | .write op => s.write env op
  | .add uuid now input embedding origin => s.add env uuid now input embedding origin
  | .addSuperseding uuid now sqlNow input oldId embedding origin =>
    s.addSuperseding env uuid now sqlNow input oldId embedding origin
  | .embed id blob => (s.insertEmbedding id blob).getD s
  | .reindex embedText force includeArchived => s.reindex embedText force includeArchived
  | .search .. | .findCandidates .. | .harvestCheck _ | .nearDuplicateRate => s

/-- A query is answered in full. -/
def AnswersInFull (knn : Knn Vec D) (floors : Floors D) (threshold : D) (s : EmbeddedStore Vec) :
    SearchEvent Vec → Prop
  | .search query limit asOf => SearchComplete knn s query limit asOf
  | .findCandidates embedding titleMatches excludeId =>
    ReportsDuplicates knn floors s embedding titleMatches excludeId
  | .harvestCheck blob => HarvestFinds knn floors s blob
  | .nearDuplicateRate => CountsNearDuplicates knn threshold s
  | _ => True

/-- The cut leaves what the query's own filter is after. -/
def CutSuffices (knn : Knn Vec D) (floors : Floors D) (threshold : D) (s : EmbeddedStore Vec) :
    SearchEvent Vec → Prop
  | .search query limit asOf => CutKeepsLive knn s query limit asOf
  | .findCandidates embedding _ excludeId => PoolKeepsDuplicates knn floors s embedding excludeId
  | .harvestCheck blob => NearestIsActive knn floors s blob
  | .nearDuplicateRate => NeighboursInReach knn threshold s
  | _ => True

theorem answersInFull_iff_cutSuffices (knn : Knn Vec D) (floors : Floors D) (threshold : D)
    (s : EmbeddedStore Vec) (event : SearchEvent Vec) :
    AnswersInFull knn floors threshold s event ↔ CutSuffices knn floors threshold s event := by
  cases event with
  | search query limit asOf => exact searchComplete_iff knn s query limit asOf
  | findCandidates embedding titleMatches excludeId =>
    exact reportsDuplicates_iff knn floors s embedding titleMatches excludeId
  | harvestCheck blob => exact harvestFinds_iff knn floors s blob
  | nearDuplicateRate => exact countsNearDuplicates_iff knn threshold s
  | write | add | addSuperseding | embed | reindex => exact Iff.rfl

/-- In every history, the queries answered in full are those whose cut suffices. -/
theorem answersInFull_iff (env : StoreEnv) (knn : Knn Vec D) (floors : Floors D) (threshold : D)
    (events : List (SearchEvent Vec)) :
    EachStep (EmbeddedStore.step env) (AnswersInFull knn floors threshold) .empty events
      ↔ EachStep (EmbeddedStore.step env) (CutSuffices knn floors threshold) .empty events :=
  have hevent := answersInFull_iff_cutSuffices knn floors threshold
  ⟨EachStep.imp _ fun s event => (hevent s event).mp,
    EachStep.imp _ fun s event => (hevent s event).mpr⟩

/-! ## An archived entry in the way -/

/-- Vectors along one axis, in ten-thousandths. -/
def axisKnn : Knn Int Nat := Knn.scan fun query v => (query - v).natAbs

/-- The shipped floors, in ten-thousandths. -/
def shippedFloors : Floors Nat := ⟨1500, 12032⟩

def plainInput (title : String) : RowInput := ⟨"decision", title, "body", [], [], none, none⟩

/-- An entry is archived, a near-duplicate of it is added, and both the search for
    the one nearest entry and harvest ask about their text. -/
def archivedNearest : List (SearchEvent Int) :=
  [.add ⟨"n1"⟩ 100 (plainInput "Use WAL mode") (some 0) none,
   .write (.archive ⟨"n1"⟩),
   .add ⟨"n2"⟩ 200 (plainInput "Use WAL mode always") (some 400) none,
   .search 0 1 none,
   .harvestCheck 0]

/-- The search comes back empty with an active near-duplicate in the store. -/
theorem not_answersInFull_of_archived :
    ¬ EachStep (EmbeddedStore.step plainEnv) (AnswersInFull axisKnn shippedFloors 1500) .empty
      archivedNearest := by
  rintro ⟨-, -, -, ⟨hnearest, -⟩, -⟩
  have hlen := hnearest.length
  revert hlen
  decide +kernel

end Memory
end Inkentry
