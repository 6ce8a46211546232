/-
  Inkentry.Index.PageRank

  The rank of every symbol in the graph of a project's edges.  The nodes are
  numbered as the edges name them, and every round reads the edges through two
  tables of numbers: where a node's links go, and where they come from.

  By name a round is one step of the random surfer (`rankStep_map`), so what
  holds of those steps holds of the scores in the tables.
-/

import Mathlib.Algebra.Field.Rat
import Mathlib.Algebra.Order.Ring.Rat
import Mathlib.Data.List.Nodup
import Mathlib.Tactic.NormNum
import Inkentry.Lib.RandomSurfer

namespace Inkentry
namespace Index

open RandomSurfer

variable {α β : Type*} [DecidableEq α] [DecidableEq β]

/-! ## The code -/

def addNode (nodes : List α) (name : α) : List α :=
  if name ∈ nodes then nodes else nodes ++ [name]

/-- The nodes, each at its number. -/
def numberNodes (edges : List (α × α)) : List α :=
  edges.foldl (fun nodes e => addNode (addNode nodes e.1) e.2) []

/-- The numbers of the nodes that each node's links go to, and come from. -/
structure Adjacency where
  outEdges : List (List ℕ)
  inEdges : List (List ℕ)

/-- One edge; a self-loop is left out. -/
def Adjacency.addEdge (adj : Adjacency) (fi ti : ℕ) : Adjacency :=
  if fi ≠ ti then
    { outEdges := adj.outEdges.modify fi (· ++ [ti])
      inEdges := adj.inEdges.modify ti (· ++ [fi]) }
  else adj

def adjacency (nodes : List α) (edges : List (α × α)) : Adjacency :=
  edges.foldl (fun adj e => adj.addEdge (nodes.idxOf e.1) (nodes.idxOf e.2))
    ⟨List.replicate nodes.length [], List.replicate nodes.length []⟩

def danglingIndices (n : ℕ) (adj : Adjacency) : List ℕ :=
  (List.range n).filter fun i => (adj.outEdges.getD i []).isEmpty

/-- One iteration. -/
def rankStep (n : ℕ) (adj : Adjacency) (damping : ℚ) (scores : List ℚ) : List ℚ :=
  let base := (1 - damping) / n
  let danglingSum := ((danglingIndices n adj).map fun i => scores.getD i 0).sum
  let danglingContrib := damping * danglingSum / n
  (List.range n).map fun v =>
    (adj.inEdges.getD v []).foldl
      (fun score u => score + damping * scores.getD u 0 / (adj.outEdges.getD u []).length)
      (base + danglingContrib)

def computePagerank (edges : List (α × α)) (iterations : ℕ) (damping : ℚ) : List (α × ℚ) :=
  if edges = [] then []
  else
    let nodes := numberNodes edges
    let n := nodes.length
    if n = 0 then []
    else
      nodes.zip ((rankStep n (adjacency nodes edges) damping)^[iterations]
        (List.replicate n (1 / n)))

/-! ## The numbering -/

variable {f : α → β}

theorem mem_addNode {nodes : List α} {name a : α} :
    a ∈ addNode nodes name ↔ a ∈ nodes ∨ a = name := by
  unfold addNode
  split
  case isTrue hmem => exact ⟨.inl, fun h => h.elim id fun heq => heq ▸ hmem⟩
  case isFalse => rw [List.mem_append, List.mem_singleton]

theorem nodup_addNode {nodes : List α} (h : nodes.Nodup) (name : α) :
    (addNode nodes name).Nodup := by
  unfold addNode
  split
  case isTrue => exact h
  case isFalse hmem =>
    exact h.append (List.nodup_singleton name) (List.disjoint_singleton.mpr hmem)

theorem numberNodes_concat (edges : List (α × α)) (e : α × α) :
    numberNodes (edges ++ [e]) = addNode (addNode (numberNodes edges) e.1) e.2 := by
  rw [numberNodes, List.foldl_append, List.foldl_cons, List.foldl_nil, ← numberNodes]

theorem mem_numberNodes {edges : List (α × α)} {a : α} :
    a ∈ numberNodes edges ↔ ∃ e ∈ edges, a = e.1 ∨ a = e.2 := by
  induction edges using List.reverseRecOn with
  | nil => simp [numberNodes]
  | append_singleton edges e ih =>
    rw [numberNodes_concat, mem_addNode, mem_addNode, ih, or_assoc]
    simp only [List.mem_append, List.mem_singleton, or_and_right, exists_or, exists_eq_left]

theorem nodup_numberNodes (edges : List (α × α)) : (numberNodes edges).Nodup := by
  induction edges using List.reverseRecOn with
  | nil => exact List.nodup_nil
  | append_singleton edges e ih =>
    rw [numberNodes_concat]
    exact nodup_addNode (nodup_addNode ih e.1) e.2

theorem toFinset_numberNodes (edges : List (α × α)) : (numberNodes edges).toFinset = ends edges := by
  ext a
  rw [List.mem_toFinset, mem_numberNodes, mem_ends]

theorem length_numberNodes (edges : List (α × α)) :
    (numberNodes edges).length = (ends edges).card := by
  rw [← toFinset_numberNodes, List.toFinset_card_of_nodup (nodup_numberNodes edges)]

theorem numberNodes_perm {edges edges' : List (α × α)} (h : edges.Perm edges') :
    (numberNodes edges).Perm (numberNodes edges') := by
  rw [List.perm_ext_iff_of_nodup (nodup_numberNodes edges) (nodup_numberNodes edges')]
  intro a
  rw [mem_numberNodes, mem_numberNodes]
  exact exists_congr fun e => and_congr_left fun _ => h.mem_iff

theorem addNode_map (hf : Function.Injective f) (nodes : List α) (name : α) :
    addNode (nodes.map f) (f name) = (addNode nodes name).map f := by
  by_cases hmem : name ∈ nodes
  · rw [addNode, addNode, if_pos hmem, if_pos ((List.mem_map_of_injective hf).mpr hmem)]
  · rw [addNode, addNode, if_neg hmem, if_neg fun h => hmem ((List.mem_map_of_injective hf).mp h),
      List.map_append, List.map_singleton]

theorem numberNodes_map (hf : Function.Injective f) (edges : List (α × α)) :
    numberNodes (edges.map (Prod.map f f)) = (numberNodes edges).map f := by
  induction edges using List.reverseRecOn with
  | nil => rfl
  | append_singleton edges e ih =>
    rw [List.map_append, List.map_singleton, numberNodes_concat, numberNodes_concat, ih]
    show addNode (addNode _ (f e.1)) (f e.2) = _
    rw [addNode_map hf, addNode_map hf]

/-! ## The tables -/

section Tables

variable {nodes : List α}

theorem adjacency_concat (nodes : List α) (edges : List (α × α)) (e : α × α) :
    adjacency nodes (edges ++ [e])
      = (adjacency nodes edges).addEdge (nodes.idxOf e.1) (nodes.idxOf e.2) := by
  rw [adjacency, List.foldl_append, List.foldl_cons, List.foldl_nil, ← adjacency]

theorem length_adjacency (nodes : List α) (edges : List (α × α)) :
    (adjacency nodes edges).outEdges.length = nodes.length
      ∧ (adjacency nodes edges).inEdges.length = nodes.length := by
  induction edges using List.reverseRecOn with
  | nil => exact ⟨List.length_replicate, List.length_replicate⟩
  | append_singleton edges e ih =>
    rw [adjacency_concat, Adjacency.addEdge]
    split
    · exact ⟨(List.length_modify ..).trans ih.1, (List.length_modify ..).trans ih.2⟩
    · exact ih

/-- A row of a table that got one more number, in the row of `a` or another. -/
theorem getD_modify_idxOf {table : List (List ℕ)} (hlen : table.length = nodes.length) {a b : α}
    (ha : a ∈ nodes) (hb : b ∈ nodes) (i : ℕ) :
    (table.modify (nodes.idxOf a) (· ++ [i])).getD (nodes.idxOf b) []
      = table.getD (nodes.idxOf b) [] ++ if a = b then [i] else [] := by
  have hlt : nodes.idxOf b < table.length := hlen ▸ List.idxOf_lt_length_of_mem hb
  rw [List.getD_eq_getElem?_getD, List.getD_eq_getElem?_getD, List.getElem?_modify,
    List.getElem?_eq_getElem hlt]
  by_cases heq : a = b
  · simp [heq]
  · have hidx : nodes.idxOf a ≠ nodes.idxOf b := fun h => heq ((List.idxOf_inj ha).mp h)
    simp [heq, hidx]

/-- What the tables hold of an edge list over the numbered nodes. -/
structure Tabulates (nodes : List α) (edges : List (α × α)) (adj : Adjacency) : Prop where
  out : ∀ a ∈ nodes, adj.outEdges.getD (nodes.idxOf a) []
    = ((links edges).filter fun e => e.1 = a).map fun e => nodes.idxOf e.2
  into : ∀ a ∈ nodes, adj.inEdges.getD (nodes.idxOf a) []
    = ((links edges).filter fun e => e.2 = a).map fun e => nodes.idxOf e.1

theorem tabulates_adjacency {edges : List (α × α)} (h : ∀ e ∈ edges, e.1 ∈ nodes ∧ e.2 ∈ nodes) :
    Tabulates nodes edges (adjacency nodes edges) := by
  induction edges using List.reverseRecOn with
  | nil =>
    have hempty : ∀ i, (List.replicate nodes.length ([] : List ℕ)).getD i [] = [] := by
      intro i
      rw [List.getD_eq_getElem?_getD, List.getElem?_replicate]
      split <;> rfl
    exact ⟨fun a _ => hempty _, fun a _ => hempty _⟩
  | append_singleton edges e ih =>
    obtain ⟨hfrom, hto⟩ := h e (List.mem_append_right _ List.mem_cons_self)
    have hold := ih fun e' he' => h e' (List.mem_append_left _ he')
    obtain ⟨hlenOut, hlenIn⟩ := length_adjacency nodes edges
    have hlinks : links (edges ++ [e]) = links edges ++ if e.1 ≠ e.2 then [e] else [] := by
      rw [links, links, List.filter_append, List.filter_singleton]
      by_cases hloop : e.1 = e.2 <;> simp [hloop]
    rw [adjacency_concat, Adjacency.addEdge]
    by_cases hloop : e.1 = e.2
    · -- a self-loop changes neither the tables nor the links
      rw [if_neg (by simp [hloop])]
      rw [if_neg (by simp [hloop]), List.append_nil] at hlinks
      exact ⟨hlinks ▸ hold.out, hlinks ▸ hold.into⟩
    · rw [if_pos (by rwa [Ne, List.idxOf_inj hfrom])]
      rw [if_pos hloop] at hlinks
      constructor
      · intro a ha
        rw [getD_modify_idxOf hlenOut hfrom ha, hold.out a ha, hlinks, List.filter_append,
          List.map_append]
        by_cases heq : e.1 = a <;> simp [heq]
      · intro a ha
        rw [getD_modify_idxOf hlenIn hto ha, hold.into a ha, hlinks, List.filter_append,
          List.map_append]
        by_cases heq : e.2 = a <;> simp [heq]

end Tables

/-! ## A round by name -/

theorem range_eq_map_idxOf {nodes : List α} (h : nodes.Nodup) :
    List.range nodes.length = nodes.map nodes.idxOf := by
  refine List.ext_getElem (by simp) fun i h₁ h₂ => ?_
  rw [List.getElem_range, List.getElem_map, h.idxOf_getElem]

theorem getD_map_idxOf {nodes : List α} {a : α} (ha : a ∈ nodes) (s : α → ℚ) :
    (nodes.map s).getD (nodes.idxOf a) 0 = s a := by
  have hlt : nodes.idxOf a < nodes.length := List.idxOf_lt_length_of_mem ha
  rw [List.getD_eq_getElem?_getD, List.getElem?_map, List.getElem?_eq_getElem hlt,
    List.getElem_idxOf, Option.map_some, Option.getD_some]

theorem foldl_add_eq {γ : Type*} (share : γ → ℚ) (l : List γ) (start : ℚ) :
    l.foldl (fun score u => score + share u) start = start + (l.map share).sum := by
  induction l generalizing start with
  | nil => simp
  | cons u l ih => rw [List.foldl_cons, ih, List.map_cons, List.sum_cons, add_assoc]

section Round

variable {edges : List (α × α)}

theorem endpoints_mem {e : α × α} (he : e ∈ edges) :
    e.1 ∈ numberNodes edges ∧ e.2 ∈ numberNodes edges :=
  ⟨mem_numberNodes.mpr ⟨e, he, .inl rfl⟩, mem_numberNodes.mpr ⟨e, he, .inr rfl⟩⟩

theorem length_outEdges {a : α} (ha : a ∈ numberNodes edges) :
    ((adjacency (numberNodes edges) edges).outEdges.getD ((numberNodes edges).idxOf a) []).length
      = degree edges a := by
  rw [(tabulates_adjacency fun e he => endpoints_mem he).out a ha, List.length_map, degree,
    List.countP_eq_length_filter]

theorem sum_danglingIndices (s : α → ℚ) :
    ((danglingIndices (numberNodes edges).length (adjacency (numberNodes edges) edges)).map
      fun i => ((numberNodes edges).map s).getD i 0).sum = ∑ b ∈ dangling edges, s b := by
  set nodes := numberNodes edges with hnodes
  have hscores : (danglingIndices nodes.length (adjacency nodes edges)).map
      (fun i => (nodes.map s).getD i 0) = (nodes.filter fun a => degree edges a = 0).map s := by
    rw [danglingIndices, range_eq_map_idxOf (nodup_numberNodes edges), List.filter_map,
      List.map_map]
    have hfilter : nodes.filter
        ((fun i => ((adjacency nodes edges).outEdges.getD i []).isEmpty) ∘ nodes.idxOf)
          = nodes.filter fun a => degree edges a = 0 := by
      refine List.filter_congr fun a ha => ?_
      rw [Function.comp_apply, ← length_outEdges ha]
      exact Bool.eq_iff_iff.mpr (by rw [List.isEmpty_iff, decide_eq_true_eq, List.length_eq_zero_iff])
    rw [hfilter]
    refine List.map_congr_left fun a ha => ?_
    exact getD_map_idxOf (List.mem_of_mem_filter ha) s
  have hset : dangling edges = (nodes.filter fun a => degree edges a = 0).toFinset := by
    rw [dangling, ← toFinset_numberNodes, List.toFinset_filter]
    exact Finset.filter_congr fun a _ => by simp
  rw [hscores, hset, List.sum_toFinset _ ((nodup_numberNodes edges).filter _)]

theorem rankStep_map (damping : ℚ) (s : α → ℚ) :
    rankStep (numberNodes edges).length (adjacency (numberNodes edges) edges) damping
        ((numberNodes edges).map s)
      = (numberNodes edges).map (follow edges damping s) := by
  simp only [rankStep]
  rw [sum_danglingIndices, range_eq_map_idxOf (nodup_numberNodes edges), List.map_map]
  refine List.map_congr_left fun a ha => ?_
  rw [Function.comp_apply, foldl_add_eq, (tabulates_adjacency fun e he => endpoints_mem he).into a ha,
    List.map_map, length_numberNodes, follow]
  congr 2
  refine List.map_congr_left fun e he => ?_
  have hfrom := (endpoints_mem (mem_of_mem_links (List.mem_of_mem_filter he))).1
  rw [Function.comp_apply, getD_map_idxOf hfrom, length_outEdges hfrom]

end Round

/-- The score of a node by name. -/
def score (edges : List (α × α)) (damping : ℚ) (iterations : ℕ) : α → ℚ :=
  (follow edges damping)^[iterations] fun _ => 1 / (ends edges).card

theorem score_succ (edges : List (α × α)) (damping : ℚ) (k : ℕ) :
    score edges damping (k + 1) = follow edges damping (score edges damping k) :=
  Function.iterate_succ_apply' ..

theorem rankStep_iterate (edges : List (α × α)) (damping : ℚ) (k : ℕ) :
    (rankStep (numberNodes edges).length (adjacency (numberNodes edges) edges) damping)^[k]
        (List.replicate (numberNodes edges).length (1 / (numberNodes edges).length))
      = (numberNodes edges).map (score edges damping k) := by
  induction k with
  | zero =>
    show List.replicate _ _ = _
    rw [score, Function.iterate_zero_apply, List.map_const', length_numberNodes]
  | succ k ih => rw [Function.iterate_succ_apply', ih, rankStep_map, score_succ]

theorem computePagerank_eq {edges : List (α × α)} (hne : edges ≠ []) (damping : ℚ) (k : ℕ) :
    computePagerank edges k damping
      = (numberNodes edges).map fun a => (a, score edges damping k a) := by
  have hlen : (numberNodes edges).length ≠ 0 := by
    rw [length_numberNodes]
    exact Finset.card_ne_zero.mpr (ends_nonempty hne)
  simp only [computePagerank]
  rw [if_neg hne, if_neg hlen, rankStep_iterate, ← List.map_prod_left_eq_zip]

/-! ## The scores -/

theorem sum_score {edges : List (α × α)} (hne : edges ≠ []) (damping : ℚ) (k : ℕ) :
    ∑ a ∈ ends edges, score edges damping k a = 1 := by
  induction k with
  | zero =>
    have hcard : ((ends edges).card : ℚ) ≠ 0 :=
      Nat.cast_ne_zero.mpr (Finset.card_ne_zero.mpr (ends_nonempty hne))
    show ∑ a ∈ ends edges, 1 / ((ends edges).card : ℚ) = 1
    rw [Finset.sum_const, nsmul_eq_mul, mul_one_div_cancel hcard]
  | succ k ih =>
    rw [score_succ]
    exact sum_follow hne damping ih

theorem score_nonneg (edges : List (α × α)) {damping : ℚ} (h0 : 0 ≤ damping) (h1 : damping ≤ 1)
    (k : ℕ) (a : α) : 0 ≤ score edges damping k a := by
  induction k generalizing a with
  | zero => exact div_nonneg zero_le_one (Nat.cast_nonneg _)
  | succ k ih =>
    rw [score_succ]
    exact follow_nonneg edges h0 h1 (fun b _ => ih b) a

theorem score_perm {edges edges' : List (α × α)} (h : edges.Perm edges') (damping : ℚ) (k : ℕ) :
    score edges damping k = score edges' damping k := by
  induction k with
  | zero => rw [score, score, ends_perm h]; rfl
  | succ k ih =>
    rw [score_succ, score_succ, ih]
    exact funext fun a => follow_perm h damping _ a

theorem score_map (hf : Function.Injective f) (edges : List (α × α)) (damping : ℚ) (k : ℕ) (a : α) :
    score (edges.map (Prod.map f f)) damping k (f a) = score edges damping k a := by
  induction k generalizing a with
  | zero =>
    show 1 / ((ends (edges.map (Prod.map f f))).card : ℚ) = 1 / ((ends edges).card : ℚ)
    rw [ends_map, Finset.card_image_of_injective _ hf]
  | succ k ih =>
    rw [score_succ, score_succ]
    exact follow_map hf edges damping ih a

/-- After every iteration, over every graph: each end of an edge has one score, none is
    negative, they sum to one, and they follow the nodes through a reordering of the edges
    and a renaming of the nodes. -/
theorem computePagerank_law {edges : List (α × α)} (hne : edges ≠ []) {damping : ℚ}
    (h0 : 0 ≤ damping) (h1 : damping ≤ 1) (iterations : ℕ) :
    let scores := computePagerank edges iterations damping
    (scores.map Prod.snd).sum = 1 ∧ (∀ p ∈ scores, 0 ≤ p.2)
      ∧ (scores.map Prod.fst).Nodup
      ∧ (∀ a, a ∈ scores.map Prod.fst ↔ ∃ e ∈ edges, a = e.1 ∨ a = e.2)
      ∧ (∀ edges', edges.Perm edges' → scores.Perm (computePagerank edges' iterations damping))
      ∧ ∀ f : α → β, Function.Injective f →
          computePagerank (edges.map (Prod.map f f)) iterations damping
            = scores.map (Prod.map f id) := by
  -- the scores stand in the order of the node numbers
  have hfst : ∀ edges' : List (α × α), edges' ≠ [] →
      (computePagerank edges' iterations damping).map Prod.fst = numberNodes edges' := by
    intro edges' hne'
    rw [computePagerank_eq hne', List.map_map]
    exact List.map_id _
  refine ⟨?_, ?_, ?_, ?_, ?_, ?_⟩
  · rw [computePagerank_eq hne, List.map_map]
    show ((numberNodes edges).map (score edges damping iterations)).sum = 1
    rw [← List.sum_toFinset _ (nodup_numberNodes edges), toFinset_numberNodes]
    exact sum_score hne damping iterations
  · rw [computePagerank_eq hne]
    intro p hp
    obtain ⟨a, -, rfl⟩ := List.mem_map.mp hp
    exact score_nonneg edges h0 h1 iterations a
  · rw [hfst edges hne]
    exact nodup_numberNodes edges
  · intro a
    rw [hfst edges hne]
    exact mem_numberNodes
  · intro edges' hperm
    have hne' : edges' ≠ [] := fun h => hne (List.perm_nil.mp (h ▸ hperm))
    rw [computePagerank_eq hne, computePagerank_eq hne', score_perm hperm]
    exact (numberNodes_perm hperm).map _
  · intro f hf
    rw [computePagerank_eq hne, computePagerank_eq (by simpa using hne), numberNodes_map hf,
      List.map_map, List.map_map]
    refine List.map_congr_left fun a _ => ?_
    show (f a, score _ damping iterations (f a)) = (f a, score edges damping iterations a)
    rw [score_map hf]

/-- A symbol that only calls itself, one called twice, and one that calls nothing. -/
theorem computePagerank_law_of_calls :
    (([("main", "parse"), ("main", "parse"), ("walk", "walk")] : List (String × String)) ≠ []
      ∧ (0 : ℚ) ≤ 17 / 20 ∧ (17 / 20 : ℚ) ≤ 1)
      ∧ ((computePagerank [("main", "parse"), ("main", "parse"), ("walk", "walk")] 2
          (17 / 20)).map Prod.snd).sum = 1 :=
  ⟨⟨by simp, by norm_num, by norm_num⟩, (computePagerank_law (β := String) (by simp) (by norm_num) (by norm_num) 2).1⟩

end Index
end Inkentry
