/-
  Inkentry.Search.AllDbs

  Hybrid search over a project and the projects linked to it:
  `search_all_dbs_hybrid`.

  The hits of all projects are sorted by their distance, by their place in
  their project and by their row id, and of each place the first hit is kept.
  Places and row ids are those of one project: two projects can have different
  files at one place, and hits of one place that tie in distance and row id.
-/

import Inkentry.Lib.Leaders
import Inkentry.Lib.SplitText
import Inkentry.Search.RowIds

namespace Inkentry
namespace Search

open OrderLimit RankFusion Firsts Leaders SplitText

/-! ## Linked projects -/

/-- What a query meets in an index that opens and can be searched. -/
structure Index where
  db : Database
  bm25 : Option (Chunk → Option ℚ)

/-- A linked project; it has no index where its database does not open or fails the query. -/
structure Project where
  rootPath : String
  index : Option Index

/-- A row of `spec_links` with its spec. -/
structure SpecLink where
  specPath : String
  title : String
  linkedPath : String

/-- The project that is searched: its index, which may fail the query, and its spec links, which
may not be readable. -/
structure Primary where
  index : Option Index
  specLinks : Option (List SpecLink)

/-- The last component of a path, unless that is `..` or there is none. -/
def fileName (path : String) : Option String :=
  match ((split ['/'] path.toList).filter fun c => c ≠ [] && c ≠ ['.']).getLast? with
  | some component => if component = ['.', '.'] then none else some (String.ofList component)
  | none => none

def projectDisplayName (path : String) : String := (fileName path).getD path

def annotateDepResults (results : List SearchResult) (projectName : Option String)
    (projectPath : String) : List SearchResult :=
  results.map fun r => { r with projectName := projectName, projectPath := some projectPath }

/-- `fp.starts_with(&linked_path) || fp == &linked_path`. -/
def SpecLink.covers (l : SpecLink) (filePath : String) : Bool :=
  l.linkedPath.toList.isPrefixOf filePath.toList || filePath == l.linkedPath

/-- The specs, with their titles, that are linked to one of the files or to a prefix of it. -/
def specsForFiles (links : List SpecLink) (filePaths : List String) : List (String × String) :=
  (firsts SpecLink.specPath (links.filter fun l => filePaths.any l.covers)).map
    fun l => (l.specPath, l.title)

def annotateSpecs (links : Option (List SpecLink)) (all : List SearchResult) : List SearchResult :=
  match links with
  | none => all
  | some links =>
    if (specsForFiles links (all.map SearchResult.filePath)).isEmpty then all
    else all.map fun r =>
      { r with governingSpecs := (specsForFiles links [r.filePath]).map Prod.fst }

/-! ## The merge -/

variable (nearest : ℕ → List (ℤ × ℚ) → List (ℤ × ℚ))

def Index.searchHybrid (ix : Index) (limit : ℕ) : List SearchResult :=
  Search.searchHybrid nearest ix.db ix.bm25 limit

/-- A primary index that fails the query has no hits. -/
def Primary.hits (primary : Primary) (limit : ℕ) : List SearchResult :=
  (primary.index.map fun ix => ix.searchHybrid nearest limit).getD []

/-- A linked project that fails is passed over. -/
def Project.hits (p : Project) (limit : ℕ) : List SearchResult :=
  match p.index with
  | some ix => annotateDepResults (ix.searchHybrid nearest limit)
      (some (projectDisplayName p.rootPath)) p.rootPath
  | none => []

def linkedHits (deps : List Project) (limit : ℕ) : List SearchResult :=
  deps.flatMap fun p => p.hits nearest limit

/-- Distance, path, first line, last line, row id. -/
def mergeKey (r : SearchResult) : ℚ ×ₗ Span ×ₗ ℤ := toLex (r.distance, toLex (r.span, r.chunkId))

/-- Sorts, keeps the first hit of each place, and cuts. -/
def mergeHits (limit : ℕ) (all : List SearchResult) : List SearchResult :=
  (firsts SearchResult.span (sortBy mergeKey all)).take limit

/-- An error where the primary index does not open. -/
def searchAllDbsHybrid (opened : Option Primary) (deps : List Project) (limit : ℕ) :
    Option (List SearchResult) :=
  opened.map fun primary => annotateSpecs primary.specLinks
    (mergeHits limit (primary.hits nearest limit ++ linkedHits nearest deps limit))

variable {nearest}

/-! ## What a search over all projects is to return -/

/-- Two hits of one chunk. -/
def SameChunk (r h : SearchResult) : Prop := r.span = h.span ∧ r.content = h.content

/-- The best hits: what is left out has its chunk among them, or is no better than any of them. -/
structure KeepsBest (limit : ℕ) (hits results : List SearchResult) : Prop where
  of_hits : ∀ r ∈ results, ∃ h ∈ hits, ∃ specs, r = { h with governingSpecs := specs }
  length_le : results.length ≤ limit
  sorted : results.Pairwise fun r r' => r.distance ≤ r'.distance
  kept : ∀ h ∈ hits, (∃ r ∈ results, SameChunk r h)
    ∨ results.length = limit ∧ ∀ r ∈ results, r.distance ≤ h.distance

/-- The order of the linked projects does not show, and the results are the best hits. -/
def MergeLaw (nearest : ℕ → List (ℤ × ℚ) → List (ℤ × ℚ)) (opened : Option Primary)
    (deps : List Project) (limit : ℕ) : Prop :=
  (∀ deps', deps'.Perm deps → searchAllDbsHybrid nearest opened deps' limit
      = searchAllDbsHybrid nearest opened deps limit)
    ∧ ∀ primary, opened = some primary →
        ∀ results, searchAllDbsHybrid nearest opened deps limit = some results →
          KeepsBest limit (primary.hits nearest limit ++ linkedHits nearest deps limit) results

/-- How many places have a hit of a kind. -/
def placesWith (p : SearchResult → Bool) (hits : List SearchResult) : ℕ :=
  ((hits.filter p).map SearchResult.span).dedup.length

/-- Which of two hits that tie is shown does not depend on the order of their projects: they are one
hit, or the primary project has it too, or `limit` places are better. -/
def Settled (limit : ℕ) (own linked : List SearchResult) (r r' : SearchResult) : Prop :=
  r = r' ∨ (∃ h ∈ own, mergeKey h = mergeKey r)
    ∨ limit ≤ placesWith (fun h => mergeKey h < mergeKey r) (own ++ linked)

/-- Each place's best hits among those of the linked projects are settled. -/
def OwnersSettled (limit : ℕ) (own linked : List SearchResult) : Prop :=
  ∀ r ∈ linked, ∀ r' ∈ linked, mergeKey r = mergeKey r' →
    Leads SearchResult.span mergeKey (own ++ linked) r → Settled limit own linked r r'

/-- A place's best hit is of the chunk of every hit of the place, but for those that have `limit`
places with a hit as good. -/
def PlacesAgree (limit : ℕ) (hits : List SearchResult) : Prop :=
  ∀ h ∈ hits, ∀ r ∈ hits, r.span = h.span → Leads SearchResult.span mergeKey hits r →
    r.content = h.content ∨ limit ≤ placesWith (fun b => b.distance ≤ h.distance) hits

instance (limit : ℕ) (own linked : List SearchResult) (r r' : SearchResult) :
    Decidable (Settled limit own linked r r') := inferInstanceAs (Decidable (_ ∨ (∃ h ∈ own, _) ∨ _))

set_option synthInstance.maxSize 512 in
instance (limit : ℕ) (own linked : List SearchResult) : Decidable (OwnersSettled limit own linked) :=
  inferInstanceAs (Decidable (∀ r ∈ linked, ∀ r' ∈ linked, _ → _ → _))

set_option synthInstance.maxSize 512 in
instance (limit : ℕ) (hits : List SearchResult) : Decidable (PlacesAgree limit hits) :=
  inferInstanceAs (Decidable (∀ h ∈ hits, ∀ r ∈ hits, _ → _ → _ ∨ _))

/-! ## Hits of one project -/

section Hits

variable {limit : ℕ}
variable {r : SearchResult}

/-- `governing_specs` is empty until the merged results are annotated. -/
theorem searchHybrid_governingSpecs {db : Database} {bm25 : Option (Chunk → Option ℚ)}
    (hr : r ∈ searchHybrid nearest db bm25 limit) : r.governingSpecs = [] := by
  obtain ⟨entry, -, hentry⟩ := List.mem_filterMap.mp hr
  rw [get_byId] at hentry
  obtain ⟨h, hfind, rfl⟩ := Option.map_eq_some_iff.mp hentry
  rcases List.mem_append.mp (List.mem_of_find?_eq_some hfind) with hvec | htext
  · obtain ⟨q, -, rfl⟩ := List.mem_map.mp hvec
    rfl
  · cases bm25 with
    | none => cases htext
    | some score =>
      obtain ⟨q, -, rfl⟩ := List.mem_map.mp htext
      rfl

theorem Project.hits_ids_nodup (hnearest : NearestFirst nearest) (p : Project) :
    ((p.hits nearest limit).map SearchResult.chunkId).Nodup := by
  rw [Project.hits]
  split
  · rw [annotateDepResults, List.map_map]
    exact (searchHybrid_fuses hnearest _ _ _).1
  · exact List.nodup_nil

theorem Project.hits_governingSpecs {p : Project}
    (hr : r ∈ p.hits nearest limit) : r.governingSpecs = [] := by
  rw [Project.hits] at hr
  split at hr
  · obtain ⟨h, hh, rfl⟩ := List.mem_map.mp hr
    exact searchHybrid_governingSpecs (r := h) hh
  · cases hr

theorem Primary.hits_governingSpecs {primary : Primary}
    (hr : r ∈ primary.hits nearest limit) : r.governingSpecs = [] := by
  rw [Primary.hits] at hr
  cases hix : primary.index with
  | none =>
    rw [hix] at hr
    cases hr
  | some ix =>
    rw [hix] at hr
    exact searchHybrid_governingSpecs hr

/-- A hit under the specs of its file. -/
def governed (links : Option (List SpecLink)) (r : SearchResult) : SearchResult :=
  match links with
  | none => r
  | some links => { r with governingSpecs := (specsForFiles links [r.filePath]).map Prod.fst }

theorem specsForFiles_eq_nil_iff {links : List SpecLink} {filePaths : List String} :
    specsForFiles links filePaths = [] ↔ ∀ l ∈ links, ∀ p ∈ filePaths, l.covers p = false := by
  rw [specsForFiles, List.map_eq_nil_iff]
  constructor
  · intro hnone l hl p hp
    by_contra hcovers
    have hmem : l ∈ links.filter fun l => filePaths.any l.covers :=
      List.mem_filter.mpr ⟨hl, List.any_eq_true.mpr ⟨p, hp, by simpa using hcovers⟩⟩
    obtain ⟨l', hl', -⟩ : ∃ l' ∈ firsts SpecLink.specPath _, l'.specPath = l.specPath :=
      exists_mem_firsts hmem
    rw [hnone] at hl'
    cases hl'
  · intro hnone
    refine List.eq_nil_iff_forall_not_mem.mpr fun l hl => ?_
    obtain ⟨hl, hany⟩ := List.mem_filter.mp (mem_of_mem_firsts hl)
    obtain ⟨p, hp, hcovers⟩ := List.any_eq_true.mp hany
    rw [hnone l hl p hp] at hcovers
    cases hcovers

/-- No file of the results has specs where all of them together have none. -/
theorem annotateSpecs_eq (links : Option (List SpecLink)) {all : List SearchResult}
    (hall : ∀ r ∈ all, r.governingSpecs = []) :
    annotateSpecs links all = all.map (governed links) := by
  cases links with
  | none => exact (List.map_id all).symm
  | some links =>
    rw [annotateSpecs]
    split
    case isFalse => rfl
    case isTrue hempty =>
      refine (List.map_id all).symm.trans (List.map_congr_left fun r hr => ?_)
      have hnone : specsForFiles links [r.filePath] = [] := by
        refine specsForFiles_eq_nil_iff.mpr fun l hl p hp => ?_
        have hp' : p ∈ all.map SearchResult.filePath := by
          rw [List.mem_singleton.mp hp]
          exact List.mem_map_of_mem hr
        exact specsForFiles_eq_nil_iff.mp (List.isEmpty_iff.mp hempty) l hl p hp'
      rw [governed, hnone]
      show r = { r with governingSpecs := [] }
      rw [← hall r hr]

end Hits

/-! ## The hits that are kept -/

section Merge

variable {limit : ℕ} {all : List SearchResult}

theorem span_eq_of_mergeKey (a b : SearchResult) (h : mergeKey a = mergeKey b) : a.span = b.span :=
  (Prod.ext_iff.mp (toLex_inj.mp (Prod.ext_iff.mp (toLex_inj.mp h)).2)).1

theorem chunkId_eq_of_mergeKey {a b : SearchResult} (h : mergeKey a = mergeKey b) :
    a.chunkId = b.chunkId :=
  (Prod.ext_iff.mp (toLex_inj.mp (Prod.ext_iff.mp (toLex_inj.mp h)).2)).2

theorem distance_le_of_mergeKey {a b : SearchResult} (h : mergeKey a ≤ mergeKey b) :
    a.distance ≤ b.distance := by
  rcases Prod.Lex.toLex_le_toLex.mp h with hlt | ⟨heq, -⟩
  · exact hlt.le
  · exact heq.le

/-- A hit is kept when it is the first of the best of its place and fewer than `limit` places are
better. -/
theorem mem_mergeHits_iff {r : SearchResult} : r ∈ mergeHits limit all ↔
    Leads SearchResult.span mergeKey all r
      ∧ (all.find? fun b => mergeKey b = mergeKey r) = some r
      ∧ placesWith (fun b => mergeKey b < mergeKey r) all < limit := by
  have hcount : (leaders SearchResult.span mergeKey all).countP (fun b => mergeKey b < mergeKey r)
      = placesWith (fun b => mergeKey b < mergeKey r) all := by
    refine countP_leaders fun a b hab hb => ?_
    exact decide_eq_true (hab.trans_lt (of_decide_eq_true hb))
  have hpred : (fun b => decide (mergeKey b = mergeKey r ∧ b.span = r.span))
      = fun b => decide (mergeKey b = mergeKey r) := by
    funext b
    exact decide_eq_decide.mpr (and_iff_left_of_imp (span_eq_of_mergeKey b r))
  show r ∈ (leaders SearchResult.span mergeKey all).take limit ↔ _
  rw [mem_take_leaders_iff span_eq_of_mergeKey, mem_leaders_iff, hcount, hpred, and_assoc]

theorem mem_of_mem_mergeHits {r : SearchResult} (h : r ∈ mergeHits limit all) : r ∈ all :=
  List.mem_of_find?_eq_some (mem_mergeHits_iff.mp h).2.1

theorem eq_of_mem_mergeHits {r r' : SearchResult} (hr : r ∈ mergeHits limit all)
    (hr' : r' ∈ mergeHits limit all) (hspan : r.span = r'.span) : r = r' :=
  eq_of_mem_leaders (List.mem_of_mem_take hr) (List.mem_of_mem_take hr') hspan

theorem mergeHits_pairwise :
    (mergeHits limit all).Pairwise fun a b => mergeKey a ≤ mergeKey b :=
  leaders_pairwise.sublist (List.take_sublist limit _)

theorem length_mergeHits_le : (mergeHits limit all).length ≤ limit := by
  rw [mergeHits, List.length_take]
  exact min_le_left _ _

/-- The limit is reached by hits at or before a distance exactly when so many places have one. -/
theorem full_iff {d : ℚ} : (mergeHits limit all).length = limit
      ∧ (∀ r ∈ mergeHits limit all, r.distance ≤ d)
    ↔ limit ≤ placesWith (fun b => b.distance ≤ d) all := by
  have hcount : (leaders SearchResult.span mergeKey all).countP (fun b => b.distance ≤ d)
      = placesWith (fun b => b.distance ≤ d) all := by
    refine countP_leaders fun a b hab hb => ?_
    exact decide_eq_true ((distance_le_of_mergeKey hab).trans (of_decide_eq_true hb))
  have hsub : (mergeHits limit all).Sublist (leaders SearchResult.span mergeKey all) :=
    List.take_sublist limit _
  rw [← hcount]
  constructor
  · rintro ⟨hlen, hle⟩
    have hall : (mergeHits limit all).countP (fun b => b.distance ≤ d)
        = (mergeHits limit all).length :=
      List.countP_eq_length.mpr fun r hr => decide_eq_true (hle r hr)
    exact (hall.trans hlen).symm.trans_le hsub.countP_le
  · intro hplaces
    refine ⟨?_, fun r hr => ?_⟩
    · have hlen : (leaders SearchResult.span mergeKey all).countP (fun b => b.distance ≤ d)
          ≤ (leaders SearchResult.span mergeKey all).length := List.countP_le_length
      show ((leaders SearchResult.span mergeKey all).take limit).length = limit
      rw [List.length_take]
      omega
    · by_contra hgt
      -- all rows at or before the distance come before `r`
      have hmono : (leaders SearchResult.span mergeKey all).countP (fun b => b.distance ≤ d)
          ≤ (leaders SearchResult.span mergeKey all).countP fun b => mergeKey b < mergeKey r := by
        refine List.countP_mono_left fun b _ hb => decide_eq_true ?_
        exact Prod.Lex.toLex_lt_toLex.mpr
          (.inl ((of_decide_eq_true hb).trans_lt (not_le.mp hgt)))
      have hlt := ((mem_take_leaders_iff span_eq_of_mergeKey).mp hr).2
      omega

theorem governed_span (links : Option (List SpecLink)) (r : SearchResult) :
    (governed links r).span = r.span := by
  cases links <;> rfl

theorem governed_content (links : Option (List SpecLink)) (r : SearchResult) :
    (governed links r).content = r.content := by
  cases links <;> rfl

theorem governed_distance (links : Option (List SpecLink)) (r : SearchResult) :
    (governed links r).distance = r.distance := by
  cases links <;> rfl

theorem exists_governed_eq (links : Option (List SpecLink)) (r : SearchResult) :
    ∃ specs, governed links r = { r with governingSpecs := specs } := by
  cases links with
  | none => exact ⟨r.governingSpecs, rfl⟩
  | some links => exact ⟨_, rfl⟩

/-- The kept hits are the best exactly where no place hides a chunk that belongs among them. -/
theorem keepsBest_iff (links : Option (List SpecLink)) :
    KeepsBest limit all ((mergeHits limit all).map (governed links)) ↔ PlacesAgree limit all := by
  have hfull {d : ℚ} : ((mergeHits limit all).map (governed links)).length = limit
      ∧ (∀ r ∈ (mergeHits limit all).map (governed links), r.distance ≤ d)
        ↔ limit ≤ placesWith (fun b => b.distance ≤ d) all := by
    rw [← full_iff, List.length_map, List.forall_mem_map]
    simp only [governed_distance]
  constructor
  · intro hbest h hh r hr hspan hleads
    by_contra! hcut
    obtain ⟨hcontent, hplaces⟩ := hcut
    -- one of the two is not of the chunk that shows at their place
    have hlost {x y : SearchResult} (hx : x ∈ all) (hspan : x.span = y.span)
        (hd : x.distance ≤ h.distance) (hy : y ∈ leaders SearchResult.span mergeKey all)
        (hne : y.content ≠ x.content) : False := by
      rcases hbest.kept x hx with ⟨s, hs, hsame⟩ | hcutoff
      · obtain ⟨z, hz, rfl⟩ := List.mem_map.mp hs
        rw [SameChunk, governed_span, governed_content] at hsame
        have hzy := eq_of_mem_leaders (List.mem_of_mem_take hz) hy (hsame.1.trans hspan)
        exact hne (hzy ▸ hsame.2)
      · have hle := hfull.mp ⟨hcutoff.1, fun s hs => (hcutoff.2 s hs).trans hd⟩
        omega
    obtain ⟨w, hw, hwspan, -⟩ :
      ∃ w ∈ leaders SearchResult.span mergeKey all, w.span = h.span ∧ mergeKey w ≤ mergeKey h :=
        exists_mem_leaders hh
    by_cases hwh : w.content = h.content
    · have hd : r.distance ≤ h.distance := distance_le_of_mergeKey (hleads h hh hspan.symm)
      exact hlost hr (hspan.trans hwspan.symm) hd hw fun heq => hcontent (heq.symm.trans hwh)
    · exact hlost hh hwspan.symm le_rfl hw hwh
  · intro hagree
    refine ⟨?_, ?_, ?_, ?_⟩
    · intro r hr
      obtain ⟨h, hh, rfl⟩ := List.mem_map.mp hr
      exact ⟨h, mem_of_mem_mergeHits hh, exists_governed_eq links h⟩
    · rw [List.length_map]
      exact length_mergeHits_le
    · rw [List.pairwise_map]
      refine mergeHits_pairwise.imp fun hle => ?_
      rw [governed_distance, governed_distance]
      exact distance_le_of_mergeKey hle
    · intro h hh
      obtain ⟨w, hw, hwspan, hwle⟩ :
        ∃ w ∈ leaders SearchResult.span mergeKey all, w.span = h.span ∧ mergeKey w ≤ mergeKey h :=
          exists_mem_leaders hh
      rcases hagree h hh w (mem_of_mem_leaders hw) hwspan (leads_of_mem_leaders hw) with
        hcontent | hplaces
      · by_cases hwin : w ∈ mergeHits limit all
        · refine .inl ⟨_, List.mem_map_of_mem hwin, ?_⟩
          rw [SameChunk, governed_span, governed_content]
          exact ⟨hwspan, hcontent⟩
        · obtain ⟨hlen, hle⟩ := full_of_not_mem_take hw hwin
          refine .inr (hfull.mpr (full_iff.mp ⟨le_antisymm length_mergeHits_le hlen, ?_⟩))
          exact fun r hr => distance_le_of_mergeKey ((hle r hr).trans hwle)
      · exact .inr (hfull.mpr hplaces)

end Merge

/-! ## The order of the linked projects -/

section Order

variable {limit : ℕ} {primary : Primary} {deps deps' : List Project}
variable {own linked linked' : List SearchResult}

theorem OwnersSettled.mem_of_shown (h : OwnersSettled limit own linked)
    (hperm : linked'.Perm linked) {r : SearchResult}
    (hr : r ∈ mergeHits limit (own ++ linked)) : r ∈ mergeHits limit (own ++ linked') := by
  obtain ⟨hleads, hfind, hplaces⟩ := mem_mergeHits_iff.mp hr
  have hall : (own ++ linked').Perm (own ++ linked) := hperm.append_left own
  have hcount : placesWith (fun b => mergeKey b < mergeKey r) (own ++ linked')
      = placesWith (fun b => mergeKey b < mergeKey r) (own ++ linked) :=
    ((hall.filter _).map _).dedup.length_eq
  refine mem_mergeHits_iff.mpr ⟨hleads.perm hall.symm, ?_, hcount ▸ hplaces⟩
  rw [List.find?_append] at hfind ⊢
  cases hown : own.find? fun b => mergeKey b = mergeKey r with
  | some h => rwa [hown] at hfind
  | none =>
    rw [hown, Option.none_or] at hfind
    rw [Option.none_or]
    -- the primary project has no such hit, so the linked projects have only one
    have hmem := List.mem_of_find?_eq_some hfind
    obtain ⟨r', hr'⟩ : ∃ r', linked'.find? (fun b => mergeKey b = mergeKey r) = some r' :=
      Option.isSome_iff_exists.mp (List.find?_isSome.mpr ⟨r, hperm.mem_iff.mpr hmem, by simp⟩)
    have hkey : mergeKey r' = mergeKey r := by simpa using List.find?_some hr'
    have hmem' := hperm.mem_iff.mp (List.mem_of_find?_eq_some hr')
    rcases h r hmem r' hmem' hkey.symm hleads with heq | ⟨p, hp, hpr⟩ | hfull
    · rw [hr', heq]
    · have hnone := List.find?_eq_none.mp hown p hp
      exact absurd (by simpa using hpr) hnone
    · omega

theorem OwnersSettled.perm (h : OwnersSettled limit own linked) (hperm : linked'.Perm linked) :
    OwnersSettled limit own linked' := by
  intro r hr r' hr' hkey hleads
  have hall : (own ++ linked').Perm (own ++ linked) := hperm.append_left own
  have hcount : placesWith (fun b => mergeKey b < mergeKey r) (own ++ linked')
      = placesWith (fun b => mergeKey b < mergeKey r) (own ++ linked) :=
    ((hall.filter _).map _).dedup.length_eq
  rw [Settled, hcount]
  exact h r (hperm.mem_iff.mp hr) r' (hperm.mem_iff.mp hr') hkey (hleads.perm hall)

/-- Settled owners show the same hits in every order of the linked hits. -/
theorem OwnersSettled.mergeHits_eq (h : OwnersSettled limit own linked)
    (hperm : linked'.Perm linked) :
    mergeHits limit (own ++ linked') = mergeHits limit (own ++ linked) := by
  have hnodup (all : List SearchResult) : (mergeHits limit all).Nodup :=
    (List.Nodup.of_map _ leaders_groups_nodup).sublist (List.take_sublist limit _)
  have hmem : ∀ r, r ∈ mergeHits limit (own ++ linked') ↔ r ∈ mergeHits limit (own ++ linked) :=
    fun r => ⟨(h.perm hperm).mem_of_shown hperm.symm, h.mem_of_shown hperm⟩
  refine List.Perm.eq_of_pairwise ?_ mergeHits_pairwise mergeHits_pairwise
    ((List.perm_ext_iff_of_nodup (hnodup _) (hnodup _)).mpr hmem)
  intro r r' hr hr' hle hge
  exact eq_of_mem_mergeHits ((hmem r).mp hr) hr' (span_eq_of_mergeKey r r' (le_antisymm hle hge))

/-- A linked project that is listed first shows its hits of a place, if no better one is there. -/
theorem mem_mergeHits_of_first (hnearest : NearestFirst nearest) {own : List SearchResult}
    {p : Project} {r : SearchResult} (hr : r ∈ p.hits nearest limit)
    (hleads : Leads SearchResult.span mergeKey (own ++ linkedHits nearest (p :: deps) limit) r)
    (hown : ∀ h ∈ own, mergeKey h ≠ mergeKey r)
    (hplaces : placesWith (fun b => mergeKey b < mergeKey r)
      (own ++ linkedHits nearest (p :: deps) limit) < limit) :
    r ∈ mergeHits limit (own ++ linkedHits nearest (p :: deps) limit) := by
  refine mem_mergeHits_iff.mpr ⟨hleads, ?_, hplaces⟩
  have hnone : (own.find? fun b => mergeKey b = mergeKey r) = none :=
    List.find?_eq_none.mpr fun h hh => by simpa using hown h hh
  obtain ⟨s, hs⟩ : ∃ s, (p.hits nearest limit).find? (fun b => mergeKey b = mergeKey r) = some s :=
    Option.isSome_iff_exists.mp (List.find?_isSome.mpr ⟨r, hr, by simp⟩)
  have hkey : mergeKey s = mergeKey r := by simpa using List.find?_some hs
  have hsr : s = r := List.inj_on_of_nodup_map (p.hits_ids_nodup hnearest)
    (List.mem_of_find?_eq_some hs) hr (chunkId_eq_of_mergeKey hkey)
  rw [List.find?_append, hnone, Option.none_or, linkedHits, List.flatMap_cons, List.find?_append,
    hs, hsr, Option.some_or]

theorem eq_of_governed {links : Option (List SpecLink)} {r r' : SearchResult}
    (h : governed links r = governed links r') (hr : r.governingSpecs = [])
    (hr' : r'.governingSpecs = []) : r = r' := by
  obtain ⟨specs, hspecs⟩ := exists_governed_eq links r
  obtain ⟨specs', hspecs'⟩ := exists_governed_eq links r'
  have hbare : { r with governingSpecs := [] } = ({ r' with governingSpecs := [] } : SearchResult) := by
    rw [hspecs, hspecs'] at h
    exact congrArg (fun x : SearchResult => { x with governingSpecs := [] }) h
  calc r = { r with governingSpecs := [] } := by rw [← hr]
    _ = { r' with governingSpecs := [] } := hbare
    _ = r' := by rw [← hr']

/-- Where owners are not settled, two orders of the linked projects show different hits. -/
theorem ownersSettled_of_ordered (hnearest : NearestFirst nearest) (links : Option (List SpecLink))
    {own : List SearchResult}
    (h : ∀ deps', deps'.Perm deps →
      (mergeHits limit (own ++ linkedHits nearest deps' limit)).map (governed links)
        = (mergeHits limit (own ++ linkedHits nearest deps limit)).map (governed links)) :
    OwnersSettled limit own (linkedHits nearest deps limit) := by
  intro r hr r' hr' hkey hleads
  rw [Settled]
  by_contra! hsettled
  obtain ⟨hne, hown, hplaces⟩ := hsettled
  -- each of the two is shown when its project is listed first
  have hshown : ∀ s ∈ linkedHits nearest deps limit, mergeKey s = mergeKey r →
      governed links s
        ∈ (mergeHits limit (own ++ linkedHits nearest deps limit)).map (governed links) := by
    intro s hs hsr
    obtain ⟨p, hp, hsp⟩ := List.mem_flatMap.mp hs
    obtain ⟨before, after, rfl⟩ := List.append_of_mem hp
    have hperm : (p :: (before ++ after)).Perm (before ++ p :: after) := List.perm_middle.symm
    have hall := (hperm.flatMap_right fun p => p.hits nearest limit).append_left own
    rw [← h _ hperm]
    refine List.mem_map_of_mem (mem_mergeHits_of_first hnearest hsp ?_ ?_ ?_)
    · intro b hb hspan
      rw [hsr]
      exact hleads b (hall.mem_iff.mp hb) (hspan.trans (span_eq_of_mergeKey s r hsr))
    · exact fun b hb => hsr ▸ hown b hb
    · rw [hsr]
      exact (((hall.filter _).map _).dedup.length_eq).trans_lt hplaces
  obtain ⟨s, hs, hsr⟩ := List.mem_map.mp (hshown r hr rfl)
  obtain ⟨s', hs', hsr'⟩ := List.mem_map.mp (hshown r' hr' hkey.symm)
  have hspan : s.span = s'.span := by
    rw [← governed_span links s, ← governed_span links s', hsr, hsr', governed_span, governed_span]
    exact span_eq_of_mergeKey r r' hkey
  have hss : s = s' := eq_of_mem_mergeHits hs hs' hspan
  have hnospecs : ∀ x ∈ linkedHits nearest deps limit, x.governingSpecs = [] := by
    intro x hx
    obtain ⟨p, -, hxp⟩ := List.mem_flatMap.mp hx
    exact p.hits_governingSpecs hxp
  exact hne (eq_of_governed (hsr.symm.trans (hss ▸ hsr')) (hnospecs r hr) (hnospecs r' hr'))

end Order

/-! ## The law of a search over all projects -/

theorem mergedHits_governingSpecs (primary : Primary) (deps : List Project) (limit : ℕ) :
    ∀ r ∈ mergeHits limit (primary.hits nearest limit ++ linkedHits nearest deps limit),
      r.governingSpecs = [] := by
  intro r hr
  rcases List.mem_append.mp (mem_of_mem_mergeHits hr) with hown | hlinked
  · exact Primary.hits_governingSpecs hown
  · obtain ⟨p, -, hp⟩ := List.mem_flatMap.mp hlinked
    exact p.hits_governingSpecs hp

/-- The law holds exactly where no place that belongs among the best is contested: its best hit is
one hit, or the primary project's, and of the chunk of every other hit of the place. -/
theorem mergeLaw_iff (hnearest : NearestFirst nearest) (opened : Option Primary)
    (deps : List Project) (limit : ℕ) :
    MergeLaw nearest opened deps limit ↔ ∀ primary, opened = some primary →
      OwnersSettled limit (primary.hits nearest limit) (linkedHits nearest deps limit)
        ∧ PlacesAgree limit (primary.hits nearest limit ++ linkedHits nearest deps limit) := by
  cases opened with
  | none => simp [MergeLaw, searchAllDbsHybrid]
  | some primary =>
    have hresult (deps : List Project) : searchAllDbsHybrid nearest (some primary) deps limit
        = some ((mergeHits limit (primary.hits nearest limit ++ linkedHits nearest deps limit)).map
            (governed primary.specLinks)) :=
      congrArg some (annotateSpecs_eq primary.specLinks (mergedHits_governingSpecs primary deps limit))
    constructor
    · rintro ⟨hordered, hbest⟩ p hp
      obtain rfl := Option.some.inj hp
      refine ⟨ownersSettled_of_ordered hnearest primary.specLinks fun deps' hperm => ?_, ?_⟩
      · exact Option.some.inj ((hresult deps').symm.trans ((hordered deps' hperm).trans (hresult deps)))
      · exact (keepsBest_iff primary.specLinks).mp (hbest primary rfl _ (hresult deps))
    · intro hsettled
      obtain ⟨howners, hplaces⟩ := hsettled primary rfl
      refine ⟨fun deps' hperm => ?_, fun p hp results hresults => ?_⟩
      · have hlinked : (linkedHits nearest deps' limit).Perm (linkedHits nearest deps limit) :=
          hperm.flatMap_right _
        rw [hresult, hresult, howners.mergeHits_eq hlinked]
      · obtain rfl := Option.some.inj hp
        obtain rfl := Option.some.inj ((hresult deps).symm.trans hresults)
        exact (keepsBest_iff primary.specLinks).mpr hplaces

/-- A project with one chunk, in the first lines of a file. -/
def oneChunk (path content : String) : Index where
  db := ⟨[⟨1, { nthChunk 0 with filePath := path, content := content }, some 1⟩],
    List.nodup_singleton _⟩
  bm25 := none

/-- Files at different paths do not meet. -/
theorem mergeLaw_of_other_path :
    MergeLaw nearestRows (some ⟨some (oneChunk "src/main.rs" "fn main() {}"), none⟩)
      [⟨"/work/tool", some (oneChunk "src/tool.rs" "fn tool() {}")⟩] 10 :=
  (mergeLaw_iff (fun k table => cut_orderLimit Prod.snd k table) _ _ 10).mpr fun primary hp => by
    obtain rfl := Option.some.inj hp
    decide +kernel

/-- Two linked projects with files of their own at one path. -/
def toolProject : Project := ⟨"/work/tool", some (oneChunk "src/main.rs" "fn tool() {}")⟩

def appProject : Project := ⟨"/work/app", some (oneChunk "src/main.rs" "fn app() {}")⟩

/-- One of two files that share a path is hidden, and the order of the projects says which. -/
theorem not_mergeLaw_of_same_path :
    ¬ MergeLaw nearestRows (some ⟨none, none⟩) [toolProject, appProject] 10
      ∧ ¬ KeepsBest 10 (linkedHits nearestRows [toolProject, appProject] 10)
          (mergeHits 10 (linkedHits nearestRows [toolProject, appProject] 10)) := by
  have htool : (searchAllDbsHybrid nearestRows (some ⟨none, none⟩) [toolProject, appProject] 10).map
      (List.map SearchResult.content) = some ["fn tool() {}"] := by
    decide +kernel
  have happ : (searchAllDbsHybrid nearestRows (some ⟨none, none⟩) [appProject, toolProject] 10).map
      (List.map SearchResult.content) = some ["fn app() {}"] := by
    decide +kernel
  constructor
  · intro hlaw
    have hsame := hlaw.1 [appProject, toolProject] (List.Perm.swap _ _ [])
    rw [hsame, htool] at happ
    simp at happ
  · intro hbest
    have hkept : mergeHits 10 (linkedHits nearestRows [toolProject, appProject] 10)
        = toolProject.hits nearestRows 10 := by
      decide +kernel
    rw [hkept] at hbest
    have hhidden : ∀ h ∈ appProject.hits nearestRows 10,
        ¬ ((∃ r ∈ toolProject.hits nearestRows 10, r.span = h.span ∧ r.content = h.content)
          ∨ (toolProject.hits nearestRows 10).length = 10
            ∧ ∀ r ∈ toolProject.hits nearestRows 10, r.distance ≤ h.distance) := by
      decide +kernel
    obtain ⟨h, hh⟩ := List.exists_mem_of_ne_nil (appProject.hits nearestRows 10) (by decide +kernel)
    refine hhidden h hh (hbest.kept h ?_)
    exact List.mem_flatMap.mpr ⟨appProject, by simp, hh⟩

end Search
end Inkentry
