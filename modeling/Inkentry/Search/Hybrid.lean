/-
  Inkentry.Search.Hybrid

  Hybrid search over one project's chunks: `search_similar`, `search_text` and
  `search_hybrid`.

  The vector index answers a query with its `k` nearest entries and promises
  nothing about which of several equally near ones it returns; it sees row ids
  and distances alone.  Full-text scores are given, a score for each chunk that
  matches; both orders, and the fused one, break ties by the chunk's place in
  the corpus.
-/

import Inkentry.Lib.OrderedCut
import Inkentry.Lib.RankFusion
import Inkentry.Lib.SortedMap
import Mathlib.Data.List.Dedup
import Mathlib.Data.String.Basic

namespace Inkentry
namespace Search

open OrderLimit RankFusion Firsts

/-- A place in the corpus: path, first line, last line. -/
abbrev Span := String ×ₗ ℕ ×ₗ ℕ

/-- A row of `chunks` joined with its file, but for its rowid. -/
structure Chunk where
  filePath : String
  language : String
  nodeType : String
  name : Option String
  startLine : ℕ
  endLine : ℕ
  content : String
  tokenCount : ℕ
  graphRank : ℚ
  deriving DecidableEq

def Chunk.span (c : Chunk) : Span := toLex (c.filePath, toLex (c.startLine, c.endLine))

structure SearchResult where
  chunkId : ℤ
  filePath : String
  language : String
  nodeType : String
  name : Option String
  startLine : ℕ
  endLine : ℕ
  content : String
  distance : ℚ
  fromGraph : Bool
  governingSpecs : List String
  tokenCount : ℕ
  projectName : Option String
  projectPath : Option String
  summary : Option String
  deriving DecidableEq

def SearchResult.span (r : SearchResult) : Span :=
  toLex (r.filePath, toLex (r.startLine, r.endLine))

/-- A chunk under its rowid, with the distance of its embedding to the query, where it has one. -/
structure Row where
  id : ℤ
  chunk : Chunk
  distance : Option ℚ
  deriving DecidableEq

/-- A project's index as a query meets it, the rows in the order of the vector table. -/
structure Database where
  rows : List Row
  ids_nodup : (rows.map Row.id).Nodup

def Database.row? (db : Database) (id : ℤ) : Option Row := db.rows.find? fun r => r.id = id

/-- The vector table: row ids with their distances to the query. -/
def Database.embeddings (db : Database) : List (ℤ × ℚ) :=
  db.rows.filterMap fun r => r.distance.map fun d => (r.id, d)

/-- What the vector index does with `MATCH` and `k`: the `k` nearest entries, in an order of its
own where distances are equal. -/
def NearestFirst (nearest : ℕ → List (ℤ × ℚ) → List (ℤ × ℚ)) : Prop :=
  ∀ k table, Cut Prod.snd k table (nearest k table)

/-! ## The two ranked lists -/

/-- `ORDER BY k.distance, f.path, c.start_line, c.end_line, k.chunk_id`, and the same of scores. -/
def place (h : ℚ × Row) : ℚ ×ₗ Span ×ₗ ℤ := toLex (h.1, toLex (h.2.chunk.span, h.2.id))

def GRAPH_RANK_ALPHA : ℚ := 3 / 20

def INT8_SCALE : ℚ := 127

/-- The distance that `search_similar` reports. -/
def blended (distance graphRank : ℚ) : ℚ :=
  distance / INT8_SCALE * (1 - GRAPH_RANK_ALPHA) - graphRank * GRAPH_RANK_ALPHA

def similarResult (h : ℚ × Row) : SearchResult where
  chunkId := h.2.id
  distance := blended h.1 h.2.chunk.graphRank
  nodeType := h.2.chunk.nodeType
  name := h.2.chunk.name
  startLine := h.2.chunk.startLine
  endLine := h.2.chunk.endLine
  content := h.2.chunk.content
  filePath := h.2.chunk.filePath
  language := h.2.chunk.language
  fromGraph := false
  governingSpecs := []
  tokenCount := h.2.chunk.tokenCount
  projectName := none
  projectPath := none
  summary := none

/-- `JOIN chunks c ON c.id = k.chunk_id`. -/
def Database.joined (db : Database) (knn : List (ℤ × ℚ)) : List (ℚ × Row) :=
  knn.filterMap fun e => (db.row? e.1).map fun r => (e.2, r)

def searchSimilar (nearest : ℕ → List (ℤ × ℚ) → List (ℤ × ℚ)) (db : Database) (limit : ℕ) :
    List SearchResult :=
  (sortBy place (db.joined (nearest (min limit 1000) db.embeddings))).map similarResult

def textResult (h : ℚ × Row) : SearchResult :=
  { similarResult h with distance := h.1, tokenCount := 0 }

/-- The rows that match, with their scores. -/
def Database.matching (db : Database) (bm25 : Chunk → Option ℚ) : List (ℚ × Row) :=
  db.rows.filterMap fun r => (bm25 r.chunk).map fun s => (s, r)

/-- Fails where the full-text query does. -/
def searchText (db : Database) (bm25 : Option (Chunk → Option ℚ)) (limit : ℕ) :
    Option (List SearchResult) :=
  bm25.map fun score => (orderLimit place (min limit 1000) (db.matching score)).map textResult

/-! ## Fusing them -/

def RRF_K : ℚ := 60

/-- `1.0 / (K + (rank + 1) as f64)`. -/
def rrf (rank : ℕ) : ℚ := 1 / (RRF_K + ((rank + 1 : ℕ) : ℚ))

/-- `*scores.entry(result.chunk_id).or_insert(0.0) += rrf`. -/
def addScore (scores : SortedMap ℤ ℚ) (hit : SearchResult × ℕ) : SortedMap ℤ ℚ :=
  scores.insert hit.1.chunkId ((scores.get hit.1.chunkId).getD 0 + rrf hit.2)

/-- `by_id.entry(result.chunk_id).or_insert(result)`. -/
def keepHit (byId : SortedMap ℤ SearchResult) (r : SearchResult) : SortedMap ℤ SearchResult :=
  if (byId.get r.chunkId).isSome then byId else byId.insert r.chunkId r

def scores (vec text : List SearchResult) : SortedMap ℤ ℚ :=
  text.zipIdx.foldl addScore (vec.zipIdx.foldl addScore SortedMap.empty)

def byId (vec text : List SearchResult) : SortedMap ℤ SearchResult :=
  text.foldl keepHit (vec.foldl keepHit SortedMap.empty)

def tieBreakKey (byId : SortedMap ℤ SearchResult) (chunkId : ℤ) : Span ×ₗ ℤ :=
  toLex (((byId.get chunkId).map SearchResult.span).getD (toLex ("", toLex (0, 0))), chunkId)

/-- Descending score, then the tie-break. -/
def rankKey (byId : SortedMap ℤ SearchResult) (entry : ℤ × ℚ) : ℚ ×ₗ Span ×ₗ ℤ :=
  toLex (-entry.2, tieBreakKey byId entry.1)

/-- The result's distance is the inverse of its score. -/
def withScore (score : ℚ) (r : SearchResult) : SearchResult := { r with distance := 1 / score }

/-- The fusing half of `search_hybrid`.  An id is asked for once, so what it removes from `by_id`
is what it finds there. -/
def fuse (limit : ℕ) (vec text : List SearchResult) : List SearchResult :=
  (orderLimit (rankKey (byId vec text)) limit (scores vec text).entries).filterMap fun entry =>
    ((byId vec text).get entry.1).map (withScore entry.2)

def candidates (limit : ℕ) : ℕ := max (limit * 3) 20

/-- A text query that fails leaves the vector hits alone. -/
def searchHybrid (nearest : ℕ → List (ℤ × ℚ) → List (ℤ × ℚ)) (db : Database)
    (bm25 : Option (Chunk → Option ℚ)) (limit : ℕ) : List SearchResult :=
  fuse limit (searchSimilar nearest db (candidates limit))
    ((searchText db bm25 (candidates limit)).getD [])

/-! ## The maps of a fusion -/

section Maps

variable {vec text : List SearchResult}

theorem get_addScore (m : SortedMap ℤ ℚ) (hit : SearchResult × ℕ) (id : ℤ) :
    (addScore m hit).get id
      = if id = hit.1.chunkId then some ((m.get id).getD 0 + rrf hit.2) else m.get id := by
  rw [addScore]
  split
  case isTrue heq => rw [heq, SortedMap.get_insert_self]
  case isFalse hne => exact SortedMap.get_insert_of_ne m _ hne

theorem get_addScores {l : List SearchResult} (hl : (l.map SearchResult.chunkId).Nodup) (id : ℤ) :
    ∀ (m : SortedMap ℤ ℚ) (n : ℕ), ((l.zipIdx n).foldl addScore m).get id
      = (l.findIdx? fun r => r.chunkId = id).elim (m.get id)
          fun rank => some ((m.get id).getD 0 + rrf (n + rank)) := by
  induction l with
  | nil => exact fun m n => rfl
  | cons r l ih =>
    intro m n
    obtain ⟨hr, hl'⟩ := List.nodup_cons.mp hl
    rw [List.zipIdx_cons, List.foldl_cons, ih hl', get_addScore, List.findIdx?_cons]
    by_cases hid : r.chunkId = id
    · -- the rest of the list does not have the id
      have hnone : (l.findIdx? fun r => r.chunkId = id) = none := by
        refine List.findIdx?_eq_none_iff.mpr fun r' hr' => ?_
        have hne : r'.chunkId ≠ id := fun h => hr (hid ▸ h ▸ List.mem_map_of_mem hr')
        simpa using hne
      rw [hnone, if_pos hid.symm]
      simp [hid]
    · rw [if_neg (Ne.symm hid)]
      simp only [hid, decide_false, Bool.false_eq_true, if_false]
      cases l.findIdx? fun r => r.chunkId = id with
      | none => rfl
      | some rank =>
        simp only [Option.map_some, Option.elim_some]
        rw [Nat.add_assoc, Nat.add_comm 1 rank]

theorem get_keepHit (m : SortedMap ℤ SearchResult) (r : SearchResult) (id : ℤ) :
    (keepHit m r).get id = (m.get id).or (if r.chunkId = id then some r else none) := by
  rw [keepHit]
  by_cases hid : r.chunkId = id
  · subst hid
    cases hget : m.get r.chunkId with
    | none => simp [SortedMap.get_insert_self]
    | some r' => simp [hget]
  · rw [if_neg hid, Option.or_none]
    split
    · rfl
    · exact SortedMap.get_insert_of_ne m r (Ne.symm hid)

theorem get_keepHits (l : List SearchResult) (id : ℤ) : ∀ m : SortedMap ℤ SearchResult,
    (l.foldl keepHit m).get id = (m.get id).or (l.find? fun r => r.chunkId = id) := by
  induction l with
  | nil => intro m; simp
  | cons r l ih =>
    intro m
    rw [List.foldl_cons, ih, get_keepHit, Option.or_assoc, List.find?_cons]
    congr 1
    by_cases hid : r.chunkId = id <;> simp [hid]

theorem get_byId (vec text : List SearchResult) (id : ℤ) :
    (byId vec text).get id = (vec ++ text).find? fun r => r.chunkId = id := by
  rw [byId, get_keepHits, get_keepHits, List.find?_append, SortedMap.get_empty, Option.none_or]

theorem get_scores (hvec : (vec.map SearchResult.chunkId).Nodup)
    (htext : (text.map SearchResult.chunkId).Nodup) (id : ℤ) :
    (scores vec text).get id
      = if id ∈ (vec ++ text).map SearchResult.chunkId
        then some (score RRF_K SearchResult.chunkId vec text id) else none := by
  have hnone {l : List SearchResult} :
      (l.findIdx? fun r => r.chunkId = id) = none ↔ id ∉ l.map SearchResult.chunkId := by
    simp [List.findIdx?_eq_none_iff]
  rw [scores, get_addScores htext, get_addScores hvec, SortedMap.get_empty, score, share, share]
  simp only [List.map_append, List.mem_append]
  -- found by vector, by text, by both or by neither
  cases hv : vec.findIdx? fun r => r.chunkId = id with
  | none =>
    have hv' := hnone.mp hv
    cases ht : text.findIdx? fun r => r.chunkId = id with
    | none => simp [hv', hnone.mp ht]
    | some rank =>
      have ht' : id ∈ text.map SearchResult.chunkId := by
        by_contra hnot
        rw [hnone.mpr hnot] at ht
        cases ht
      rw [if_pos (.inr ht')]
      simp [rrf]
  | some rank =>
    have hv' : id ∈ vec.map SearchResult.chunkId := by
      by_contra hnot
      rw [hnone.mpr hnot] at hv
      cases hv
    rw [if_pos (.inl hv')]
    cases ht : text.findIdx? fun r => r.chunkId = id with
    | none => simp [rrf]
    | some rank' => simp [rrf]

end Maps

/-! ## Fusion as rank fusion -/

section Fusion

variable {limit : ℕ} {vec text : List SearchResult}

/-- A place in the corpus and, where places are equal, the row id. -/
def idPlace (r : SearchResult) : Span ×ₗ ℤ := toLex (r.span, r.chunkId)

/-- A hit's score in the two lists, by its row id. -/
def fusedScore (vec text : List SearchResult) (r : SearchResult) : ℚ :=
  score RRF_K SearchResult.chunkId vec text r.chunkId

theorem get_byId_of_mem {r : SearchResult}
    (hr : r ∈ firsts SearchResult.chunkId (vec ++ text)) :
    (byId vec text).get r.chunkId = some r := by
  rw [get_byId]
  exact mem_firsts_iff.mp hr

theorem entries_perm (hvec : (vec.map SearchResult.chunkId).Nodup)
    (htext : (text.map SearchResult.chunkId).Nodup) :
    (scores vec text).entries.Perm
      ((firsts SearchResult.chunkId (vec ++ text)).map fun r =>
        (r.chunkId, fusedScore vec text r)) := by
  have hentries : (scores vec text).entries.Nodup :=
    (scores vec text).sorted.imp fun hlt heq => hlt.ne (congrArg Prod.fst heq)
  have hhits : ((firsts SearchResult.chunkId (vec ++ text)).map fun r =>
      (r.chunkId, fusedScore vec text r)).Nodup := by
    refine List.Nodup.of_map Prod.fst ?_
    rw [List.map_map]
    exact firsts_keys_nodup SearchResult.chunkId (vec ++ text)
  refine (List.perm_ext_iff_of_nodup hentries hhits).mpr fun ⟨id, s⟩ => ?_
  rw [← SortedMap.get_eq_some_iff, get_scores hvec htext]
  constructor
  · intro hget
    split at hget
    case isFalse => cases hget
    case isTrue hmem =>
      obtain ⟨r, hr, rfl⟩ := List.mem_map.mp (mem_map_firsts_iff.mpr hmem)
      exact List.mem_map.mpr ⟨r, hr, Prod.ext rfl (Option.some.inj hget)⟩
  · intro hmem
    obtain ⟨r, hr, heq⟩ := List.mem_map.mp hmem
    obtain ⟨rfl, rfl⟩ := Prod.mk.inj heq
    rw [if_pos (List.mem_map_of_mem (mem_of_mem_firsts hr))]
    rfl

/-- `search_hybrid`'s maps and its sort fuse the two lists by reciprocal rank. -/
theorem fuse_eq (hvec : (vec.map SearchResult.chunkId).Nodup)
    (htext : (text.map SearchResult.chunkId).Nodup) :
    fuse limit vec text = (fused RRF_K SearchResult.chunkId idPlace limit vec text).map fun r =>
      withScore (fusedScore vec text r) r := by
  have hkey : ∀ r ∈ firsts SearchResult.chunkId (vec ++ text),
      rankKey (byId vec text) (r.chunkId, fusedScore vec text r)
        = fusedKey RRF_K SearchResult.chunkId idPlace vec text r := by
    intro r hr
    rw [rankKey, tieBreakKey, get_byId_of_mem hr]
    rfl
  have hinj : ∀ a ∈ (scores vec text).entries, ∀ b ∈ (scores vec text).entries,
      rankKey (byId vec text) a = rankKey (byId vec text) b → a = b := by
    intro a _ b _ heq
    have hsplit := Prod.ext_iff.mp (toLex_inj.mp heq)
    have hid : a.1 = b.1 := (Prod.ext_iff.mp (toLex_inj.mp hsplit.2)).2
    exact Prod.ext hid (neg_inj.mp hsplit.1)
  have hsorted : orderLimit (rankKey (byId vec text)) limit (scores vec text).entries
      = (fused RRF_K SearchResult.chunkId idPlace limit vec text).map fun r =>
          (r.chunkId, fusedScore vec text r) := by
    rw [orderLimit, sortBy_eq_of_perm _ (entries_perm hvec htext) hinj, fused, orderLimit,
      List.map_take]
    refine congrArg (List.take limit) (sortBy_map_of_mem _ fun a ha b hb => ?_)
    rw [hkey a ha, hkey b hb]
  rw [fuse, hsorted, List.filterMap_map, ← List.filterMap_eq_map]
  refine List.filterMap_congr fun r hr => ?_
  have hfirst : r ∈ firsts SearchResult.chunkId (vec ++ text) := mem_of_mem_orderLimit _ hr
  rw [Function.comp_apply, get_byId_of_mem hfirst]
  rfl

/-- One hit goes before another: by its score, then by its place in the corpus. -/
def Before (vec text : List SearchResult) (r r' : SearchResult) : Prop :=
  fusedScore vec text r' < fusedScore vec text r
    ∨ fusedScore vec text r = fusedScore vec text r' ∧ r.span ≤ r'.span

/-- What a fusion of two ranked lists is to return: every id once, each a hit of the lists under
its score, `limit` of them where there are so many, the best first and none better left out. -/
def Fuses (limit : ℕ) (vec text results : List SearchResult) : Prop :=
  (results.map SearchResult.chunkId).Nodup
    ∧ (∀ r ∈ results, ∃ h ∈ vec ++ text, r = withScore (fusedScore vec text h) h)
    ∧ results.length = min limit ((vec ++ text).map SearchResult.chunkId).dedup.length
    ∧ results.Pairwise (Before vec text)
    ∧ ∀ h, (vec ++ text).find? (fun r => r.chunkId = h.chunkId) = some h →
        h.chunkId ∉ results.map SearchResult.chunkId → ∀ r ∈ results, Before vec text r h

theorem before_of_fusedKey_le {r r' : SearchResult}
    (h : fusedKey RRF_K SearchResult.chunkId idPlace vec text r
      ≤ fusedKey RRF_K SearchResult.chunkId idPlace vec text r') : Before vec text r r' := by
  rcases Prod.Lex.toLex_le_toLex.mp h with hlt | ⟨heq, hle⟩
  · exact .inl (neg_lt_neg_iff.mp hlt)
  · refine .inr ⟨neg_inj.mp heq, ?_⟩
    rcases Prod.Lex.toLex_le_toLex.mp hle with hspan | ⟨hspan, -⟩
    · exact hspan.le
    · exact hspan.le

theorem fuse_fuses (hvec : (vec.map SearchResult.chunkId).Nodup)
    (htext : (text.map SearchResult.chunkId).Nodup) : Fuses limit vec text (fuse limit vec text) := by
  have hids : (fuse limit vec text).map SearchResult.chunkId
      = (fused RRF_K SearchResult.chunkId idPlace limit vec text).map SearchResult.chunkId := by
    rw [fuse_eq hvec htext, List.map_map]
    rfl
  refine ⟨hids ▸ fused_names_nodup, ?_, ?_, ?_, ?_⟩
  · intro r hr
    rw [fuse_eq hvec htext] at hr
    obtain ⟨h, hh, rfl⟩ := List.mem_map.mp hr
    exact ⟨h, mem_of_mem_fused hh, rfl⟩
  · have hperm : ((firsts SearchResult.chunkId (vec ++ text)).map SearchResult.chunkId).Perm
        ((vec ++ text).map SearchResult.chunkId).dedup :=
      (List.perm_ext_iff_of_nodup (firsts_keys_nodup _ _) (List.nodup_dedup _)).mpr fun id => by
        rw [mem_map_firsts_iff, List.mem_dedup]
    rw [fuse_eq hvec htext, List.length_map, length_fused, ← hperm.length_eq, List.length_map]
  · rw [fuse_eq hvec htext, List.pairwise_map]
    exact fused_pairwise.imp before_of_fusedKey_le
  · intro h hfirst hout r hr
    rw [fuse_eq hvec htext] at hr
    obtain ⟨a, ha, rfl⟩ := List.mem_map.mp hr
    have hle := le_of_not_mem_fused ha (mem_firsts_iff.mpr hfirst) fun hmem => hout ?_
    · exact before_of_fusedKey_le hle
    · rw [hids]
      exact List.mem_map_of_mem hmem

end Fusion

end Search
end Inkentry
