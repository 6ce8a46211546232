/-
  Inkentry.Search.RowIds

  Whether two indexes of one tree answer a query alike.  They hold the same
  chunks under row ids of their own, in an order of their own.

  Everything after the vector cut orders rows by their place in the corpus, so
  the two answers agree as soon as the cut takes the same chunks from both
  (`answersAlike_of_wholeTies`).  The cut itself knows row ids and distances alone:
  where it falls between chunks that are equally near, two indexes that differ
  in the ids of two such chunks lose different ones, and some text query puts
  the one that was kept first (`not_answersAlike_of_split`).
-/

import Inkentry.Search.Hybrid
import Mathlib.Logic.Equiv.Basic
import Mathlib.Tactic.NormNum

namespace Inkentry
namespace Search

open OrderLimit RankFusion Firsts

/-- What an index holds, but for its row ids. -/
abbrev Contents := List (Chunk × Option ℚ)

def Database.contents (db : Database) : Contents := db.rows.map fun r => (r.chunk, r.distance)

def DistinctSpans (contents : Contents) : Prop := (contents.map fun c => c.1.span).Nodup

instance (contents : Contents) : Decidable (DistinctSpans contents) :=
  inferInstanceAs (Decidable (List.Nodup _))

/-- A result but for its row id. -/
def withoutRow (r : SearchResult) : SearchResult := { r with chunkId := 0 }

/-- Any two indexes that hold these chunks at these distances answer alike, whatever the text
scores are. -/
def AnswersAlike (nearest : ℕ → List (ℤ × ℚ) → List (ℤ × ℚ)) (contents : Contents) (limit : ℕ) : Prop :=
  ∀ db db' : Database, db.contents.Perm contents → db'.contents.Perm contents →
    ∀ bm25, (searchHybrid nearest db bm25 limit).map withoutRow
      = (searchHybrid nearest db' bm25 limit).map withoutRow

/-- How many rows `search_hybrid` takes from the vector index. -/
def vectorCut (limit : ℕ) : ℕ := min (candidates limit) 1000

def distances (contents : Contents) : List ℚ := contents.filterMap Prod.snd

/-- The vector cut does not fall between chunks that are equally near. -/
def WholeTies (contents : Contents) (limit : ℕ) : Prop :=
  ∀ d ∈ distances contents,
    ((distances contents).countP fun d' => d' ≤ d) ≤ vectorCut limit
      ∨ vectorCut limit ≤ (distances contents).countP fun d' => d' < d

instance (contents : Contents) (limit : ℕ) : Decidable (WholeTies contents limit) :=
  inferInstanceAs (Decidable (∀ d ∈ distances contents, _ ∨ _))

/-! ## Hits by their place in the corpus -/

section Places

variable {contents : Contents} {limit : ℕ}

/-- A hit as it sorts where no two chunks share a place. -/
def chunkPlace (h : ℚ × Chunk) : ℚ ×ₗ Span := toLex (h.1, h.2.span)

/-- A hit without its row id. -/
def unrowed (h : ℚ × Row) : ℚ × Chunk := (h.1, h.2.chunk)

theorem eq_of_span (hspans : DistinctSpans contents) {c c' : Chunk × Option ℚ} (hc : c ∈ contents)
    (hc' : c' ∈ contents) (hspan : c.1.span = c'.1.span) : c = c' :=
  List.inj_on_of_nodup_map hspans hc hc' hspan

theorem sortBy_place {l : List (ℚ × Row)}
    (hspans : ∀ a ∈ l, ∀ b ∈ l, a.2.chunk.span = b.2.chunk.span → a = b) :
    (sortBy place l).map unrowed = sortBy chunkPlace (l.map unrowed) := by
  refine (sortBy_map_of_mem place fun a ha b hb => ?_).symm
  rw [chunkPlace, chunkPlace, place, place, Prod.Lex.toLex_le_toLex, Prod.Lex.toLex_le_toLex,
    Prod.Lex.toLex_le_toLex]
  refine or_congr_right (and_congr_right fun _ => ?_)
  rw [le_iff_lt_or_eq]
  refine or_congr_right ⟨fun heq => ⟨heq, ?_⟩, And.left⟩
  rw [hspans a ha b hb heq]

theorem sortBy_chunkPlace_of_perm {l l' : List (ℚ × Chunk)} (hperm : l.Perm l')
    (hspans : (l.map fun h => h.2.span).Nodup) : sortBy chunkPlace l = sortBy chunkPlace l' := by
  refine sortBy_eq_of_perm chunkPlace hperm fun a ha b hb heq => ?_
  have hspan : a.2.span = b.2.span := (Prod.ext_iff.mp (toLex_inj.mp heq)).2
  exact List.inj_on_of_nodup_map hspans ha hb hspan

/-- Fusion of hits that are known by their places. -/
def fuseChunks (limit : ℕ) (vec text : List SearchResult) : List SearchResult :=
  (fused RRF_K SearchResult.span SearchResult.span limit vec text).map fun r =>
    withScore (score RRF_K SearchResult.span vec text r.span) r

/-- Where ids and places tell the same hits apart, the ids do not matter. -/
theorem fuse_withoutRow {vec text : List SearchResult}
    (hvec : (vec.map SearchResult.chunkId).Nodup) (htext : (text.map SearchResult.chunkId).Nodup)
    (hspan : ∀ a ∈ vec ++ text, ∀ b ∈ vec ++ text, a.chunkId = b.chunkId ↔ a.span = b.span) :
    (fuse limit vec text).map withoutRow
      = fuseChunks limit (vec.map withoutRow) (text.map withoutRow) := by
  have hfused : fused RRF_K SearchResult.span SearchResult.span limit vec text
      = fused RRF_K SearchResult.chunkId idPlace limit vec text := by
    refine fused_congr hspan fun a ha b hb => ?_
    rw [idPlace, idPlace, Prod.Lex.toLex_le_toLex, le_iff_lt_or_eq]
    refine or_congr_right ⟨fun heq => ⟨heq, ?_⟩, And.left⟩
    exact ((hspan a (mem_of_mem_firsts ha) b (mem_of_mem_firsts hb)).mpr heq).le
  have hscore : ∀ r ∈ vec ++ text,
      score RRF_K SearchResult.span (vec.map withoutRow) (text.map withoutRow) r.span
        = fusedScore vec text r := by
    intro r hr
    rw [fusedScore, score, score, share_map, share_map,
      share_congr fun b hb => hspan b (List.mem_append_left text hb) r hr,
      share_congr fun b hb => hspan b (List.mem_append_right vec hb) r hr]
    rfl
  rw [fuse_eq hvec htext, fuseChunks, fused_map, List.map_map, List.map_map, ← hfused]
  refine List.map_congr_left fun r hr => ?_
  have hr' := hscore r (mem_of_mem_fused hr)
  exact congrArg (fun s => withScore s (withoutRow r)) hr'.symm

end Places

/-! ## What an index returns, by places -/

section Index

variable {nearest : ℕ → List (ℤ × ℚ) → List (ℤ × ℚ)} {db : Database} {contents : Contents}
  {limit k : ℕ}
variable {l : List (ℚ × Row)} {knn : List (ℤ × ℚ)}

theorem row?_eq_some {r : Row} (hr : r ∈ db.rows) : db.row? r.id = some r := by
  obtain ⟨r', hr'⟩ : ∃ r', db.row? r.id = some r' :=
    Option.isSome_iff_exists.mp (List.find?_isSome.mpr ⟨r, hr, by simp⟩)
  have hid : r'.id = r.id := by simpa using List.find?_some hr'
  rw [hr', List.inj_on_of_nodup_map db.ids_nodup (List.mem_of_find?_eq_some hr') hr hid]

theorem mem_embeddings_iff {e : ℤ × ℚ} :
    e ∈ db.embeddings ↔ ∃ r ∈ db.rows, r.id = e.1 ∧ r.distance = some e.2 := by
  simp only [Database.embeddings, List.mem_filterMap, Option.map_eq_some_iff]
  constructor
  · rintro ⟨r, hr, d, hd, rfl⟩
    exact ⟨r, hr, rfl, hd⟩
  · rintro ⟨r, hr, hid, hd⟩
    exact ⟨r, hr, e.2, hd, by rw [hid]⟩

theorem embeddings_ids_nodup (db : Database) : (db.embeddings.map Prod.fst).Nodup := by
  refine List.pairwise_map.mpr ?_
  refine (List.pairwise_map.mp db.ids_nodup).filterMap _ fun r r' hne e he e' he' => ?_
  obtain ⟨d, -, rfl⟩ := Option.map_eq_some_iff.mp he
  obtain ⟨d', -, rfl⟩ := Option.map_eq_some_iff.mp he'
  exact hne

theorem embeddings_nodup (db : Database) : db.embeddings.Nodup :=
  List.Nodup.of_map Prod.fst (embeddings_ids_nodup db)

theorem joined_entries (h : knn ⊆ db.embeddings) :
    (db.joined knn).map (fun h => (h.2.id, h.1)) = knn := by
  induction knn with
  | nil => rfl
  | cons e knn ih =>
    obtain ⟨r, hr, hid, -⟩ := mem_embeddings_iff.mp (h List.mem_cons_self)
    have hrow : db.row? e.1 = some r := hid ▸ row?_eq_some hr
    rw [Database.joined, List.filterMap_cons, hrow, Option.map_some, List.map_cons, hid]
    exact congrArg (e :: ·) (ih fun x hx => h (List.mem_cons_of_mem e hx))

theorem mem_joined_iff (h : knn ⊆ db.embeddings) {q : ℚ × Row} :
    q ∈ db.joined knn ↔ q.2 ∈ db.rows ∧ q.2.distance = some q.1 ∧ (q.2.id, q.1) ∈ knn := by
  simp only [Database.joined, List.mem_filterMap, Option.map_eq_some_iff]
  constructor
  · rintro ⟨e, he, r, hr, rfl⟩
    obtain ⟨r', hr', hid, hd⟩ := mem_embeddings_iff.mp (h he)
    have hsame : r' = r := Option.some.inj ((hid ▸ row?_eq_some hr').symm.trans hr)
    subst hsame
    exact ⟨hr', hd, by rw [hid]; exact he⟩
  · rintro ⟨hr, -, he⟩
    exact ⟨_, he, q.2, row?_eq_some hr, rfl⟩

/-- Hits of rows of the index, none of them twice. -/
structure Database.Hits (db : Database) (hits : List (ℚ × Row)) : Prop where
  rows : ∀ h ∈ hits, h.2 ∈ db.rows
  ids_nodup : (hits.map fun h => h.2.id).Nodup

theorem hits_joined (hnearest : NearestFirst nearest) (k : ℕ) :
    db.Hits (db.joined (nearest k db.embeddings)) where
  rows h hh := ((mem_joined_iff (hnearest k db.embeddings).subset).mp hh).1
  ids_nodup := by
    have hcut := hnearest k db.embeddings
    have hnodup := ((cut_iff (embeddings_nodup db)).mp hcut).1
    have hids : ((nearest k db.embeddings).map Prod.fst).Nodup :=
      hnodup.map_on fun e he e' he' heq =>
        List.inj_on_of_nodup_map (embeddings_ids_nodup db) (hcut.subset he) (hcut.subset he') heq
    rw [← joined_entries hcut.subset, List.map_map] at hids
    exact hids

theorem mem_matching_iff {score : Chunk → Option ℚ} {q : ℚ × Row} :
    q ∈ db.matching score ↔ q.2 ∈ db.rows ∧ score q.2.chunk = some q.1 := by
  simp only [Database.matching, List.mem_filterMap, Option.map_eq_some_iff]
  constructor
  · rintro ⟨r, hr, s, hs, rfl⟩
    exact ⟨hr, hs⟩
  · rintro ⟨hr, hs⟩
    exact ⟨q.2, hr, q.1, hs, rfl⟩

theorem hits_matching (score : Chunk → Option ℚ) : db.Hits (db.matching score) where
  rows h hh := (mem_matching_iff.mp hh).1
  ids_nodup := by
    refine List.pairwise_map.mpr ?_
    refine (List.pairwise_map.mp db.ids_nodup).filterMap _ fun r r' hne q hq q' hq' => ?_
    obtain ⟨s, -, rfl⟩ := Option.map_eq_some_iff.mp hq
    obtain ⟨s', -, rfl⟩ := Option.map_eq_some_iff.mp hq'
    exact hne

theorem Database.Hits.sortBy (h : db.Hits l) : db.Hits (sortBy place l) where
  rows a ha := h.rows a ((mem_sortBy place).mp ha)
  ids_nodup := by
    have hperm := (sortBy_perm place l).map fun a => a.2.id
    exact hperm.nodup_iff.mpr h.ids_nodup

theorem Database.Hits.orderLimit (h : db.Hits l) (k : ℕ) :
    db.Hits (orderLimit place k l) where
  rows a ha := h.rows a (mem_of_mem_orderLimit place ha)
  ids_nodup := h.sortBy.ids_nodup.sublist ((List.take_sublist k _).map _)

theorem searchSimilar_ids_nodup (hnearest : NearestFirst nearest) (k : ℕ) :
    ((searchSimilar nearest db k).map SearchResult.chunkId).Nodup := by
  rw [searchSimilar, List.map_map]
  exact (hits_joined hnearest _).sortBy.ids_nodup

theorem searchText_ids_nodup (bm25 : Option (Chunk → Option ℚ)) (k : ℕ) :
    (((searchText db bm25 k).getD []).map SearchResult.chunkId).Nodup := by
  cases bm25 with
  | none => exact List.nodup_nil
  | some score =>
    show (((orderLimit place _ _).map textResult).map SearchResult.chunkId).Nodup
    rw [List.map_map]
    exact ((hits_matching score).orderLimit _).ids_nodup

theorem searchHybrid_fuses (hnearest : NearestFirst nearest) (db : Database)
    (bm25 : Option (Chunk → Option ℚ)) (limit : ℕ) :
    Fuses limit (searchSimilar nearest db (candidates limit))
      ((searchText db bm25 (candidates limit)).getD []) (searchHybrid nearest db bm25 limit) :=
  fuse_fuses (searchSimilar_ids_nodup hnearest _) (searchText_ids_nodup bm25 _)

theorem DistinctSpans.perm (hspans : DistinctSpans contents) (hdb : db.contents.Perm contents) :
    DistinctSpans db.contents := by
  rw [DistinctSpans, (hdb.map fun c : Chunk × Option ℚ => c.1.span).nodup_iff]
  exact hspans

theorem spans_nodup (hspans : DistinctSpans contents) (hdb : db.contents.Perm contents) :
    (db.rows.map fun r => r.chunk.span).Nodup := by
  have hnodup := hspans.perm hdb
  rwa [DistinctSpans, Database.contents, List.map_map] at hnodup

theorem eq_of_row_span (hspans : DistinctSpans contents) (hdb : db.contents.Perm contents) {r r' : Row}
    (hr : r ∈ db.rows) (hr' : r' ∈ db.rows) (hspan : r.chunk.span = r'.chunk.span) : r = r' :=
  List.inj_on_of_nodup_map (spans_nodup hspans hdb) hr hr' hspan

theorem Database.Hits.eq_of_span (h : db.Hits l) (hspans : DistinctSpans contents)
    (hdb : db.contents.Perm contents) {a b : ℚ × Row} (ha : a ∈ l) (hb : b ∈ l)
    (hspan : a.2.chunk.span = b.2.chunk.span) : a = b := by
  have hrow := eq_of_row_span hspans hdb (h.rows a ha) (h.rows b hb) hspan
  exact List.inj_on_of_nodup_map h.ids_nodup ha hb (congrArg Row.id hrow)

/-- The chunks the vector cut takes. -/
def Database.near (nearest : ℕ → List (ℤ × ℚ) → List (ℤ × ℚ)) (db : Database) (limit : ℕ) :
    List (ℚ × Chunk) :=
  (db.joined (nearest (vectorCut limit) db.embeddings)).map unrowed

/-- The chunks that match, with their scores. -/
def textual (score : Chunk → Option ℚ) (contents : Contents) : List (ℚ × Chunk) :=
  contents.filterMap fun c => (score c.1).map fun s => (s, c.1)

/-- A vector hit without its row id. -/
def nearResult (h : ℚ × Chunk) : SearchResult := withoutRow (similarResult (h.1, ⟨0, h.2, none⟩))

/-- A text hit without its row id. -/
def matchResult (h : ℚ × Chunk) : SearchResult := withoutRow (textResult (h.1, ⟨0, h.2, none⟩))

/-- What the vector half hands to the fusion, without row ids. -/
def nearResults (near : List (ℚ × Chunk)) : List SearchResult :=
  (sortBy chunkPlace near).map nearResult

/-- What the text half hands to the fusion, without row ids. -/
def matchResults (bm25 : Option (Chunk → Option ℚ)) (contents : Contents) (k : ℕ) :
    List SearchResult :=
  bm25.elim [] fun score => (orderLimit chunkPlace k (textual score contents)).map matchResult

theorem unrowed_matching (score : Chunk → Option ℚ) :
    (db.matching score).map unrowed = textual score db.contents := by
  rw [Database.matching, textual, Database.contents, List.map_filterMap, List.filterMap_map]
  refine List.filterMap_congr fun r _ => ?_
  rw [Option.map_map]
  rfl

theorem textual_spans_nodup (hspans : DistinctSpans contents) (score : Chunk → Option ℚ) :
    ((textual score contents).map fun h => h.2.span).Nodup := by
  refine List.pairwise_map.mpr ?_
  refine (List.pairwise_map.mp hspans).filterMap _ fun c c' hne q hq q' hq' => ?_
  obtain ⟨s, -, rfl⟩ := Option.map_eq_some_iff.mp hq
  obtain ⟨s', -, rfl⟩ := Option.map_eq_some_iff.mp hq'
  exact hne

theorem searchText_withoutRow (hspans : DistinctSpans contents) (hdb : db.contents.Perm contents)
    (bm25 : Option (Chunk → Option ℚ)) (k : ℕ) :
    ((searchText db bm25 k).getD []).map withoutRow = matchResults bm25 contents (min k 1000) := by
  cases bm25 with
  | none => rfl
  | some score =>
    have hplace : orderLimit chunkPlace (min k 1000) (textual score contents)
        = (orderLimit place (min k 1000) (db.matching score)).map unrowed := by
      have hperm : ((db.matching score).map unrowed).Perm (textual score contents) := by
        rw [unrowed_matching]
        exact hdb.filterMap _
      rw [orderLimit, ← sortBy_chunkPlace_of_perm hperm, orderLimit, List.map_take,
        ← sortBy_place fun a ha b hb => (hits_matching score).eq_of_span hspans hdb ha hb]
      rw [unrowed_matching]
      exact textual_spans_nodup (hspans.perm hdb) score
    show ((orderLimit place _ _).map textResult).map withoutRow
      = (orderLimit chunkPlace _ _).map matchResult
    rw [hplace, List.map_map, List.map_map]
    rfl

theorem searchSimilar_withoutRow (hnearest : NearestFirst nearest) (hspans : DistinctSpans contents)
    (hdb : db.contents.Perm contents) :
    (searchSimilar nearest db (candidates limit)).map withoutRow
      = nearResults (db.near nearest limit) := by
  rw [searchSimilar, nearResults, Database.near,
    ← sortBy_place fun a ha b hb => (hits_joined hnearest _).eq_of_span hspans hdb ha hb,
    List.map_map, List.map_map]
  rfl

/-- A result is of a row of the index. -/
def Database.Returns (db : Database) (r : SearchResult) : Prop :=
  ∃ row ∈ db.rows, r.chunkId = row.id ∧ r.span = row.chunk.span

theorem Database.Returns.id_iff_span (hspans : DistinctSpans contents)
    (hdb : db.contents.Perm contents) {r r' : SearchResult} (hr : db.Returns r)
    (hr' : db.Returns r') : r.chunkId = r'.chunkId ↔ r.span = r'.span := by
  obtain ⟨row, hrow, hid, hspan⟩ := hr
  obtain ⟨row', hrow', hid', hspan'⟩ := hr'
  rw [hid, hid', hspan, hspan']
  constructor
  · intro heq
    rw [List.inj_on_of_nodup_map db.ids_nodup hrow hrow' heq]
  · intro heq
    rw [eq_of_row_span hspans hdb hrow hrow' heq]

/-- A search but for its row ids is one of the chunks by their places. -/
theorem searchHybrid_withoutRow (hnearest : NearestFirst nearest) (hspans : DistinctSpans contents)
    (hdb : db.contents.Perm contents) (bm25 : Option (Chunk → Option ℚ)) :
    (searchHybrid nearest db bm25 limit).map withoutRow
      = fuseChunks limit (nearResults (db.near nearest limit))
          (matchResults bm25 contents (vectorCut limit)) := by
  have hvec : db.Hits (sortBy place (db.joined (nearest (vectorCut limit) db.embeddings))) :=
    (hits_joined hnearest _).sortBy
  have htext : ∀ r ∈ (searchText db bm25 (candidates limit)).getD [], db.Returns r := by
    intro r hr
    cases bm25 with
    | none => cases hr
    | some score =>
      obtain ⟨h, hh, rfl⟩ := List.mem_map.mp hr
      exact ⟨h.2, ((hits_matching score).orderLimit _).rows h hh, rfl, rfl⟩
  have hall : ∀ r ∈ searchSimilar nearest db (candidates limit)
      ++ (searchText db bm25 (candidates limit)).getD [], db.Returns r := by
    intro r hr
    obtain hr | hr := List.mem_append.mp hr
    · obtain ⟨h, hh, rfl⟩ := List.mem_map.mp hr
      exact ⟨h.2, hvec.rows h hh, rfl, rfl⟩
    · exact htext r hr
  rw [searchHybrid, fuse_withoutRow (searchSimilar_ids_nodup hnearest _)
      (searchText_ids_nodup bm25 _) fun a ha b hb => (hall a ha).id_iff_span hspans hdb (hall b hb),
    searchSimilar_withoutRow hnearest hspans hdb, searchText_withoutRow hspans hdb, vectorCut]

theorem distances_contents (db : Database) :
    distances db.contents = db.embeddings.map Prod.snd := by
  rw [distances, Database.contents, Database.embeddings, List.filterMap_map, List.map_filterMap]
  refine List.filterMap_congr fun r _ => ?_
  rw [Option.map_map]
  exact Option.map_id'.symm

theorem near_spans_nodup (hnearest : NearestFirst nearest) (hspans : DistinctSpans contents)
    (hdb : db.contents.Perm contents) : ((db.near nearest limit).map fun h => h.2.span).Nodup := by
  have hhits : db.Hits (db.joined (nearest (vectorCut limit) db.embeddings)) :=
    hits_joined hnearest _
  rw [Database.near, List.map_map]
  refine (List.Nodup.of_map _ hhits.ids_nodup).map_on fun a ha b hb hspan => ?_
  exact hhits.eq_of_span hspans hdb ha hb hspan

/-- Where the cut splits no tie, it takes the chunks that fewer than its length come before. -/
theorem mem_near_iff (hnearest : NearestFirst nearest) (hwhole : WholeTies db.contents limit)
    {q : ℚ × Chunk} : q ∈ db.near nearest limit ↔ (q.2, some q.1) ∈ db.contents
      ∧ ((distances db.contents).countP fun d => d < q.1) < vectorCut limit := by
  have hcut := hnearest (vectorCut limit) db.embeddings
  have hin : ∀ e ∈ db.embeddings, e ∈ nearest (vectorCut limit) db.embeddings
      ↔ ((distances db.contents).countP fun d => d < e.2) < vectorCut limit := by
    intro e he
    have hd : e.2 ∈ distances db.contents := by
      rw [distances_contents]
      exact List.mem_map_of_mem he
    have hties := hwhole e.2 hd
    rw [distances_contents, List.countP_map, List.countP_map] at hties
    rw [distances_contents, List.countP_map]
    exact hcut.mem_iff (embeddings_nodup db) he hties
  simp only [Database.near, List.mem_map, Database.contents]
  constructor
  · rintro ⟨a, ha, rfl⟩
    obtain ⟨hrow, hd, he⟩ := (mem_joined_iff hcut.subset).mp ha
    exact ⟨⟨a.2, hrow, Prod.ext rfl hd⟩, (hin _ (hcut.subset he)).mp he⟩
  · rintro ⟨⟨row, hrow, heq⟩, hcount⟩
    obtain ⟨hchunk, hd⟩ := Prod.mk.inj heq
    have he : (row.id, q.1) ∈ db.embeddings := mem_embeddings_iff.mpr ⟨row, hrow, rfl, hd⟩
    refine ⟨(q.1, row), (mem_joined_iff hcut.subset).mpr ⟨hrow, hd, (hin _ he).mpr hcount⟩, ?_⟩
    exact Prod.ext rfl hchunk

theorem WholeTies.perm {contents' : Contents} (h : WholeTies contents limit)
    (hperm : contents'.Perm contents) : WholeTies contents' limit := by
  have hd : (distances contents').Perm (distances contents) := hperm.filterMap _
  intro d hmem
  rw [hd.countP_eq, hd.countP_eq]
  exact h d (hd.mem_iff.mp hmem)

theorem answersAlike_of_wholeTies (hnearest : NearestFirst nearest) (hspans : DistinctSpans contents)
    (hwhole : WholeTies contents limit) : AnswersAlike nearest contents limit := by
  intro db db' hdb hdb' bm25
  have hnear : (db.near nearest limit).Perm (db'.near nearest limit) := by
    refine (List.perm_ext_iff_of_nodup (List.Nodup.of_map _ (near_spans_nodup hnearest hspans hdb))
      (List.Nodup.of_map _ (near_spans_nodup hnearest hspans hdb'))).mpr fun q => ?_
    have hdd : (distances db.contents).Perm (distances db'.contents) :=
      (hdb.trans hdb'.symm).filterMap _
    rw [mem_near_iff hnearest (hwhole.perm hdb), mem_near_iff hnearest (hwhole.perm hdb'),
      (hdb.trans hdb'.symm).mem_iff, hdd.countP_eq]
  rw [searchHybrid_withoutRow hnearest hspans hdb, searchHybrid_withoutRow hnearest hspans hdb',
    nearResults, nearResults,
    sortBy_chunkPlace_of_perm hnear (near_spans_nodup hnearest hspans hdb)]

end Index

/-! ## A tie that the vector cut splits -/

section Split

variable {nearest : ℕ → List (ℤ × ℚ) → List (ℤ × ℚ)} {contents : Contents} {limit : ℕ}

/-- Of the two chunks that match the text, the one that the vector cut took comes first. -/
theorem head?_fuseChunks (hlimit : 0 < limit) {vec text : List SearchResult} (s s' : Span)
    (hlen : vec.length ≤ 1000) (hs : s ∈ vec.map SearchResult.span)
    (hs' : s' ∉ vec.map SearchResult.span) (hst : s ∈ text.map SearchResult.span)
    (htwo : text.length ≤ 2) (honly : ∀ r ∈ text, r.span = s ∨ r.span = s') :
    ((fuseChunks limit vec text).map SearchResult.span).head? = some s := by
  have hK : (0 : ℚ) ≤ RRF_K := by norm_num [RRF_K]
  obtain ⟨r, hr, hrs⟩ : ∃ r ∈ firsts SearchResult.span (vec ++ text), r.span = s := by
    obtain ⟨a, ha, has⟩ := List.mem_map.mp hs
    obtain ⟨r, hr, hra⟩ : ∃ r ∈ firsts SearchResult.span (vec ++ text), r.span = a.span :=
      exists_mem_firsts (List.mem_append_left text ha)
    exact ⟨r, hr, hra.trans has⟩
  have hbest : 1 / (RRF_K + 1) < score RRF_K SearchResult.span vec text s := by
    have hvec := le_share hK hs hlen
    have htext := le_share hK hst htwo
    have hsum : 1 / (RRF_K + 1) < 1 / (RRF_K + (1000 : ℕ)) + 1 / (RRF_K + (2 : ℕ)) := by
      norm_num [RRF_K]
    exact hsum.trans_le (add_le_add hvec htext)
  have hfused : (fused RRF_K SearchResult.span SearchResult.span limit vec text).head? = some r := by
    refine head?_fused hlimit hr fun b hb hne => ?_
    rw [hrs] at hne ⊢
    refine lt_of_le_of_lt ?_ hbest
    -- any other place is in one of the two lists at most
    by_cases hbs : b.span = s'
    · rw [score, hbs, share_of_not_mem hs', zero_add]
      exact share_le hK s'
    · have hbt : b.span ∉ text.map SearchResult.span := by
        intro hmem
        obtain ⟨a, ha, hab⟩ := List.mem_map.mp hmem
        rcases honly a ha with h | h
        · exact hne (hab ▸ h)
        · exact hbs (hab ▸ h)
      rw [score, share_of_not_mem hbt, add_zero]
      exact share_le hK b.span
  rw [fuseChunks, List.map_map, List.head?_map, hfused, Option.map_some, Function.comp_apply]
  exact congrArg some hrs

/-- An index of the chunks, with their places in the list for row ids. -/
def Contents.index (contents : Contents) : Database where
  rows := contents.zipIdx.map fun c => ⟨c.2, c.1.1, c.1.2⟩
  ids_nodup := by
    rw [List.map_map]
    have hidx : (contents.zipIdx.map Prod.snd).Nodup := by
      rw [List.zipIdx_map_snd]
      exact List.nodup_range'
    have hids := hidx.map (f := fun n : ℕ => (n : ℤ)) fun _ _ h => Int.ofNat_inj.mp h
    rwa [List.map_map] at hids

theorem Contents.index_contents (contents : Contents) : contents.index.contents = contents := by
  rw [Database.contents, Contents.index, List.map_map]
  exact List.zipIdx_map_fst 0 contents

theorem Contents.index_embeddings {contents contents' : Contents}
    (h : contents.map Prod.snd = contents'.map Prod.snd) :
    contents.index.embeddings = contents'.index.embeddings := by
  have hrows : ∀ cs : Contents, cs.index.embeddings
      = (cs.map Prod.snd).zipIdx.filterMap fun d => d.1.map fun q => ((d.2 : ℤ), q) := by
    intro cs
    rw [Database.embeddings, Contents.index, List.filterMap_map, List.zipIdx_map,
      List.filterMap_map]
    rfl
  rw [hrows, hrows, h]

/-- The first result, where the text query matches a chunk that the vector cut took and one that it
lost. -/
theorem head?_searchHybrid (hnearest : NearestFirst nearest) (hspans : DistinctSpans contents)
    (hlimit : 0 < limit) {db : Database} (hdb : db.contents.Perm contents) {x y : Row} {d : ℚ}
    (hx : x ∈ db.rows) (hy : y ∈ db.rows) (hxd : x.distance = some d) (hyd : y.distance = some d)
    (hin : (x.id, d) ∈ nearest (vectorCut limit) db.embeddings)
    (hout : (y.id, d) ∉ nearest (vectorCut limit) db.embeddings) (score : Chunk → Option ℚ)
    (hscore : ∀ c, (score c).isSome ↔ c = x.chunk ∨ c = y.chunk) :
    ((searchHybrid nearest db (some score) limit).map SearchResult.span).head?
      = some x.chunk.span := by
  have hcut := hnearest (vectorCut limit) db.embeddings
  have hbound : 20 ≤ vectorCut limit ∧ vectorCut limit ≤ 1000 := by
    rw [vectorCut, candidates]
    omega
  have hspan : (searchHybrid nearest db (some score) limit).map SearchResult.span
      = ((searchHybrid nearest db (some score) limit).map withoutRow).map SearchResult.span := by
    rw [List.map_map]
    rfl
  have hnear : ∀ s, s ∈ (nearResults (db.near nearest limit)).map SearchResult.span
      ↔ ∃ h ∈ db.near nearest limit, h.2.span = s := by
    intro s
    rw [nearResults, List.map_map, List.mem_map]
    exact exists_congr fun h => and_congr_left' (mem_sortBy chunkPlace)
  have hmatch : ∀ h ∈ textual score contents, h.2 = x.chunk ∨ h.2 = y.chunk := by
    intro h hh
    obtain ⟨c, -, hsome⟩ := List.mem_filterMap.mp hh
    obtain ⟨s, hs, rfl⟩ := Option.map_eq_some_iff.mp hsome
    exact (hscore c.1).mp (Option.isSome_iff_exists.mpr ⟨s, hs⟩)
  -- the text search finds the two chunks and nothing else, so its cut drops none
  have htwo : (textual score contents).length ≤ 2 := by
    have hsub : ((textual score contents).map fun h => h.2.span).Subperm
        [x.chunk.span, y.chunk.span] := by
      refine List.subperm_of_subset (textual_spans_nodup hspans score) fun s hs => ?_
      obtain ⟨h, hh, rfl⟩ := List.mem_map.mp hs
      rcases hmatch h hh with heq | heq <;> simp [heq]
    simpa using hsub.length_le
  have htext : ((orderLimit chunkPlace (vectorCut limit) (textual score contents))).length ≤ 2 := by
    rw [length_orderLimit]
    omega
  rw [hspan, searchHybrid_withoutRow hnearest hspans hdb]
  -- both are found by text; only `x` is also among the nearest
  refine head?_fuseChunks hlimit x.chunk.span y.chunk.span ?_ ?_ ?_ ?_ ?_ ?_
  · rw [nearResults, List.length_map, length_sortBy, Database.near, List.length_map]
    have hlen := congrArg List.length (joined_entries hcut.subset)
    rw [List.length_map] at hlen
    have hcutlen := ((cut_iff (embeddings_nodup db)).mp hcut).2.2.2.1
    omega
  · refine (hnear _).mpr ⟨unrowed (d, x), List.mem_map_of_mem ?_, rfl⟩
    exact (mem_joined_iff hcut.subset).mpr ⟨hx, hxd, hin⟩
  · intro hmem
    obtain ⟨h, hh, hs⟩ := (hnear _).mp hmem
    obtain ⟨a, ha, rfl⟩ := List.mem_map.mp hh
    obtain ⟨hrow, had, hae⟩ := (mem_joined_iff hcut.subset).mp ha
    have hay : a.2 = y := eq_of_row_span hspans hdb hrow hy hs
    rw [hay] at had hae
    rw [hyd] at had
    exact hout (Option.some.inj had ▸ hae)
  · have hxc : (x.chunk, x.distance) ∈ contents := hdb.mem_iff.mp (List.mem_map.mpr ⟨x, hx, rfl⟩)
    obtain ⟨s, hs⟩ := Option.isSome_iff_exists.mp ((hscore x.chunk).mpr (.inl rfl))
    have hxt : (s, x.chunk) ∈ textual score contents :=
      List.mem_filterMap.mpr ⟨_, hxc, by rw [hs]; rfl⟩
    have hkept := mem_orderLimit_of_length_lt chunkPlace (k := vectorCut limit) (by omega) hxt
    exact List.mem_map.mpr ⟨matchResult (s, x.chunk), List.mem_map_of_mem hkept, rfl⟩
  · exact (List.length_map _).trans_le htext
  · intro r hr
    obtain ⟨h, hh, rfl⟩ := List.mem_map.mp hr
    exact (hmatch h (mem_of_mem_orderLimit _ hh)).imp (congrArg Chunk.span) (congrArg Chunk.span)

/-- The same tree under other row ids: two chunks have each other's. -/
def swapped (c c' : Chunk) (contents : Contents) : Contents :=
  contents.map fun e => (Equiv.swap c c' e.1, e.2)

theorem swapped_perm (hspans : DistinctSpans contents) {x y : Chunk} {d : ℚ}
    (hx : (x, some d) ∈ contents) (hy : (y, some d) ∈ contents) :
    (swapped x y contents).Perm contents := by
  have hone {c : Chunk} {o o' : Option ℚ} (ho : (c, o) ∈ contents) (ho' : (c, o') ∈ contents) :
      o = o' := congrArg Prod.snd (eq_of_span hspans ho ho' rfl)
  have hnodup : contents.Nodup := List.Nodup.of_map _ hspans
  have hinj : Function.Injective fun e : Chunk × Option ℚ => (Equiv.swap x y e.1, e.2) := by
    intro e e' heq
    obtain ⟨h₁, h₂⟩ := Prod.mk.inj heq
    exact Prod.ext ((Equiv.swap x y).injective h₁) h₂
  have hmem : ∀ c o, (c, o) ∈ contents → (Equiv.swap x y c, o) ∈ contents := by
    intro c o hc
    by_cases hcx : c = x
    · subst hcx
      rw [Equiv.swap_apply_left, hone hc hx]
      exact hy
    · by_cases hcy : c = y
      · subst hcy
        rw [Equiv.swap_apply_right, hone hc hy]
        exact hx
      · rwa [Equiv.swap_apply_of_ne_of_ne hcx hcy]
  refine (List.subperm_of_subset (hnodup.map hinj) fun e he => ?_).perm_of_length_le
    (List.length_map _).ge
  obtain ⟨e', he', rfl⟩ := List.mem_map.mp he
  exact hmem e'.1 e'.2 he'

theorem mem_index_swapped {c c' : Chunk} {r : Row} (hr : r ∈ contents.index.rows) :
    { r with chunk := Equiv.swap c c' r.chunk } ∈ (swapped c c' contents).index.rows := by
  obtain ⟨e, he, rfl⟩ := List.mem_map.mp hr
  show _ ∈ (List.zipIdx (contents.map _)).map _
  rw [List.zipIdx_map, List.map_map]
  exact List.mem_map.mpr ⟨e, he, rfl⟩

theorem not_answersAlike_of_split (hnearest : NearestFirst nearest) (hspans : DistinctSpans contents)
    (hlimit : 0 < limit) {d : ℚ}
    (hlt : ((distances contents).countP fun d' => d' < d) < vectorCut limit)
    (hle : vectorCut limit < (distances contents).countP fun d' => d' ≤ d) :
    ¬ AnswersAlike nearest contents limit := by
  intro halike
  have hcut := hnearest (vectorCut limit) contents.index.embeddings
  obtain ⟨⟨e, he, hed⟩, e', he', hout, hed'⟩ := hcut.exists_of_split (embeddings_nodup _) (c := d)
    (by rwa [← contents.index_contents, distances_contents, List.countP_map] at hlt)
    (by rwa [← contents.index_contents, distances_contents, List.countP_map] at hle)
  obtain ⟨x, hx, hxid, hxd⟩ := mem_embeddings_iff.mp (hcut.subset he)
  obtain ⟨y, hy, hyid, hyd⟩ := mem_embeddings_iff.mp he'
  obtain rfl : e = (x.id, d) := Prod.ext hxid.symm hed
  obtain rfl : e' = (y.id, d) := Prod.ext hyid.symm hed'
  have hxc : (x.chunk, some d) ∈ contents := by
    rw [← contents.index_contents, ← hxd]
    exact List.mem_map.mpr ⟨x, hx, rfl⟩
  have hyc : (y.chunk, some d) ∈ contents := by
    rw [← contents.index_contents, ← hyd]
    exact List.mem_map.mpr ⟨y, hy, rfl⟩
  have hdb : contents.index.contents.Perm contents := by rw [contents.index_contents]
  have hdb' : (swapped x.chunk y.chunk contents).index.contents.Perm contents := by
    rw [Contents.index_contents]
    exact swapped_perm hspans hxc hyc
  have htable : (swapped x.chunk y.chunk contents).index.embeddings = contents.index.embeddings := by
    refine Contents.index_embeddings ?_
    rw [swapped, List.map_map]
    rfl
  -- the text query matches the two chunks
  let score : Chunk → Option ℚ := fun c => if c = x.chunk ∨ c = y.chunk then some 0 else none
  have hscore : ∀ c, (score c).isSome ↔ c = x.chunk ∨ c = y.chunk := by
    intro c
    by_cases hc : c = x.chunk ∨ c = y.chunk <;> simp [score, hc]
  have hfirst := head?_searchHybrid hnearest hspans hlimit hdb hx hy hxd hyd he hout score hscore
  have hfirst' := head?_searchHybrid hnearest hspans hlimit hdb' (mem_index_swapped hx)
    (mem_index_swapped hy) hxd hyd (by rw [htable]; exact he) (by rw [htable]; exact hout) score
    fun c => by
      rw [hscore, Equiv.swap_apply_left, Equiv.swap_apply_right, or_comm]
  have hsame := congrArg (fun rs => (rs.map SearchResult.span).head?)
    (halike _ _ hdb hdb' (some score))
  simp only [List.map_map] at hsame
  have hspan : x.chunk.span = y.chunk.span := by
    rw [Equiv.swap_apply_left] at hfirst'
    exact Option.some.inj (hfirst.symm.trans (hsame.trans hfirst'))
  have hxy : x = y := eq_of_row_span hspans hdb hx hy hspan
  exact hout (hxy ▸ he)

end Split

/-! ## The law of hybrid search -/

/-- Fusion returns the best of any two ranked lists; and the indexes of one tree answer alike exactly
when nothing is asked for or the vector cut splits no tie. -/
theorem hybridLaw_iff {nearest : ℕ → List (ℤ × ℚ) → List (ℤ × ℚ)} (hnearest : NearestFirst nearest) :
    (∀ limit vec text, (vec.map SearchResult.chunkId).Nodup → (text.map SearchResult.chunkId).Nodup →
        Fuses limit vec text (fuse limit vec text))
      ∧ ∀ contents limit, DistinctSpans contents →
          (AnswersAlike nearest contents limit ↔ limit = 0 ∨ WholeTies contents limit) := by
  refine ⟨fun limit vec text => fuse_fuses, fun contents limit hspans => ⟨fun halike => ?_, ?_⟩⟩
  · by_contra! hsplit
    obtain ⟨hlimit, hties⟩ := hsplit
    rw [WholeTies] at hties
    push Not at hties
    obtain ⟨d, -, hle, hlt⟩ := hties
    exact not_answersAlike_of_split hnearest hspans (Nat.pos_of_ne_zero hlimit) hlt hle halike
  · rintro (rfl | hwhole)
    · intro db db' _ _ bm25
      rfl
    · exact answersAlike_of_wholeTies hnearest hspans hwhole

/-- An index that keeps equally near rows in table order. -/
def nearestRows (k : ℕ) (table : List (ℤ × ℚ)) : List (ℤ × ℚ) := orderLimit Prod.snd k table

/-- The `n`th function of a file. -/
def nthChunk (n : ℕ) : Chunk where
  filePath := "src/lib.rs"
  language := "rust"
  nodeType := "function_item"
  name := none
  startLine := 10 * n + 1
  endLine := 10 * n + 9
  content := "fn f() {}"
  tokenCount := 3
  graphRank := 0

/-- Chunks at distances of their own have one order. -/
theorem hybridLaw_of_distinct_distances :
    AnswersAlike nearestRows [(nthChunk 0, some 1), (nthChunk 1, some 2)] 5 :=
  ((hybridLaw_iff fun k table => cut_orderLimit Prod.snd k table).2 _ 5 (by decide)).mpr
    (.inr (by decide +kernel))

/-- As many chunks at one distance as the vector cut takes, and one more. -/
def tiedChunks : Contents := (List.range 21).map fun n => (nthChunk n, some 1)

/-- Asked for one chunk, two indexes of the same tree return two different ones. -/
theorem not_answersAlike_of_tied :
    DistinctSpans tiedChunks ∧ ¬ AnswersAlike nearestRows tiedChunks 1 := by
  have hfirst : (searchHybrid nearestRows tiedChunks.index none 1).map SearchResult.startLine = [1] := by
    decide +kernel
  have hlast : (searchHybrid nearestRows (Contents.index tiedChunks.reverse) none 1).map
      SearchResult.startLine = [11] := by
    decide +kernel
  refine ⟨by decide +kernel, fun halike => ?_⟩
  have hsame := halike tiedChunks.index (Contents.index tiedChunks.reverse)
    (by rw [Contents.index_contents]) (by rw [Contents.index_contents]; exact List.reverse_perm _)
    none
  have hlines := congrArg (List.map SearchResult.startLine) hsame
  rw [List.map_map, List.map_map] at hlines
  have hcontra : [1] = [11] := hfirst.symm.trans (hlines.trans hlast)
  simp at hcontra

end Search
end Inkentry
