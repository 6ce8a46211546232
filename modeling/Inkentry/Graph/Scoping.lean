/-
  Inkentry.Graph.Scoping

  What the scopes of a file say about its names: which scope a scope lies in,
  what a call is bound to, and what the definitions of one name record.

  Scope nodes are sorted by their span, so a node comes after the scope nodes
  around it unless it has the span of one of them; then it comes after it when
  the query delivered it later.  A scope that comes before the one around it is
  recorded under the next one out (`parentsRight_iff`).
-/

import Inkentry.Graph.Locals

namespace Inkentry
namespace Graph

open Index OrderLimit

variable {Node : Type} [DecidableEq Node]

/-! ## Scopes in the tree -/

/-- A scope node of the file: the root, or one that was delivered. -/
def Parsed.isScope (sx : Parsed Node) (nodes : List Node) (n : Node) : Bool :=
  n = sx.root || nodes.contains n

/-- The scope nodes around a node, the node itself included, from the inside out. -/
def Parsed.scopesAround (sx : Parsed Node) (nodes : List Node) (n : Node) : List Node :=
  (sx.up.ancestors n).filter (sx.isScope nodes)

/-- The nearest scope node that encloses a node. -/
def Parsed.enclosing (sx : Parsed Node) (nodes : List Node) (n : Node) : Option Node :=
  (sx.parent n).bind fun p => (sx.scopesAround nodes p).head?

/-- Every scope but the file's is recorded under the nearest scope node that encloses its node. -/
def ParentsRight (sx : Parsed Node) (nodes : List Node) (fs : FileScopes Node) : Prop :=
  ∀ n ∈ nodes, n ≠ sx.root → ∃ m i j, sx.enclosing nodes n = some m
    ∧ fs.scope? n = some i ∧ fs.scope? m = some j ∧ fs.parentOf i = j

/-- What the scope of a node shows to a call. -/
def FileScopes.showsAt (fs : FileScopes Node) (start : ℕ) (name : String) (m : Node) :
    Option (ℕ × Def) :=
  (fs.scope? m).bind fun i => (fs.shows start name i).map fun d => (i, d)

/-- A call is bound, in as many steps as there are scopes, to what the first of the scopes around it
shows of the name. -/
def BindsInnermost (sx : Parsed Node) (nodes : List Node) (fs : FileScopes Node) : Prop :=
  ∀ node name fuel, fs.parent.length ≤ fuel → fs.binding sx fuel node name
    = some ((sx.scopesAround nodes node).findSome?
        (fs.showsAt (fs.innermost sx (some node)) name))

/-- The entries that definitions make in a slot. -/
def entriesOf (sx : Parsed Node) (language : String) (nodes : List Node) (key : ℕ ×ₗ String)
    (defs : List (PendingDef Node)) : List Entry :=
  ((defs.map ((addScopes sx language nodes).entryOf sx language)).filter fun e => e.1 = key).map
    Prod.snd

/-- Two recorded definitions that may differ in which alias of an import was recorded. -/
def SameBinding (es : List Entry) (d d' : Def) : Prop :=
  d.kind = d'.kind ∧ d.defines = d'.defines ∧ (d.aliased = d'.aliased ∨ d.kind = .imported
    ∧ (∃ e ∈ es, e.kind = .imported ∧ e.aliased = d.aliased)
    ∧ ∃ e ∈ es, e.kind = .imported ∧ e.aliased = d'.aliased)

/-- Definitions that are delivered in another order, those of one slot with their kinds in the same
order, are recorded alike. -/
def OrderFree (sx : Parsed Node) (language : String) (nodes : List Node) : Prop :=
  ∀ defs defs' : List (PendingDef Node), defs'.Perm defs →
    (∀ key, (entriesOf sx language nodes key defs').map Entry.kind
      = (entriesOf sx language nodes key defs).map Entry.kind) →
    ∀ key, ((analyseNodes sx language nodes defs).defs.get key = none
        ∧ (analyseNodes sx language nodes defs').defs.get key = none)
      ∨ ∃ d d', (analyseNodes sx language nodes defs).defs.get key = some d
        ∧ (analyseNodes sx language nodes defs').defs.get key = some d'
        ∧ SameBinding (entriesOf sx language nodes key defs) d d'

/-- The law of local names, for the scope nodes that a query delivers. -/
def LocalsLaw (sx : Parsed Node) (language : String) (nodes : List Node) : Prop :=
  (∀ defs, ParentsRight sx nodes (analyseNodes sx language nodes defs)
    ∧ BindsInnermost sx nodes (analyseNodes sx language nodes defs))
    ∧ OrderFree sx language nodes

/-- A scope node that has the span of the one that encloses it is delivered after it. -/
def OuterFirst (sx : Parsed Node) (nodes : List Node) : Prop :=
  ∀ n ∈ nodes, n ≠ sx.root → ∀ m ∈ sx.enclosing nodes n, m ≠ sx.root →
    sx.start m = sx.start n → sx.finish m = sx.finish n → m ∈ nodes.takeWhile (· ≠ n)

/-! ## Numbering the scope nodes -/

section Numbering

variable {sx : Parsed Node} {language : String} {fs : FileScopes Node} {nodes seen : List Node}
  {n m : Node}
variable {i : ℕ}

/-- What holds of the scopes once some scope nodes are numbered. -/
structure Numbered (sx : Parsed Node) (seen : List Node) (fs : FileScopes Node) : Prop where
  known : ∀ n, (fs.scope? n).isSome ↔ n = sx.root ∨ n ∈ seen
  file : fs.scope? sx.root = some 0
  lt : ∀ n i, fs.scope? n = some i → i < fs.parent.length
  inj : ∀ n m i, fs.scope? n = some i → fs.scope? m = some i → n = m
  parent_lt : ∀ i, 0 < i → i < fs.parent.length → fs.parentOf i < i

theorem scope?_ofFile (x : Node) :
    (FileScopes.ofFile sx language).scope? x = if sx.root = x then some 0 else none := by
  by_cases hx : sx.root = x <;> simp [FileScopes.scope?, FileScopes.ofFile, hx]

theorem numbered_ofFile (sx : Parsed Node) (language : String) :
    Numbered sx [] (FileScopes.ofFile sx language) := by
  have hroot : ∀ x i, (FileScopes.ofFile sx language).scope? x = some i → sx.root = x ∧ i = 0 := by
    intro x i hx
    rw [scope?_ofFile] at hx
    split at hx
    case isTrue heq => exact ⟨heq, (Option.some.inj hx).symm⟩
    case isFalse => cases hx
  refine ⟨fun x => ?_, by rw [scope?_ofFile, if_pos rfl], fun x i hx => ?_, fun x y i hx hy => ?_,
    fun i hpos hlt => absurd hlt (not_lt.mpr hpos)⟩
  · rw [scope?_ofFile]
    by_cases hx : sx.root = x
    · simp [hx]
    · simp [hx, Ne.symm hx]
  · rw [(hroot x i hx).2]
    exact Nat.zero_lt_one
  · exact (hroot x i hx).1.symm.trans (hroot y i hy).1

theorem scope?_addScope (h : fs.scope? n = none) (x : Node) :
    (addScope sx language fs n).scope? x
      = (fs.scope? x).or (if n = x then some fs.parent.length else none) := by
  rw [addScope, if_neg (by simp [h]), FileScopes.scope?, FileScopes.scope?, List.find?_append]
  by_cases hx : n = x
  · simp [hx]
    cases fs.scopeOfNode.find? fun e => e.1 = x <;> rfl
  · simp [hx]

theorem scope?_addScope_of_some {x : Node} (hx : fs.scope? x = some i) :
    (addScope sx language fs n).scope? x = some i := by
  cases h : fs.scope? n with
  | none => rw [scope?_addScope h, hx, Option.some_or]
  | some j => rwa [addScope, if_pos (by simp [h])]

theorem parentOf_addScope (hi : i < fs.parent.length) :
    (addScope sx language fs n).parentOf i = fs.parentOf i := by
  rw [addScope]
  split
  · rfl
  · rw [FileScopes.parentOf, FileScopes.parentOf, List.getD_eq_getElem?_getD,
      List.getD_eq_getElem?_getD, List.getElem?_append_left hi]

theorem length_addScope_le : fs.parent.length ≤ (addScope sx language fs n).parent.length := by
  rw [addScope]
  split
  · exact le_refl _
  · rw [List.length_append]
    exact Nat.le_add_right _ _

theorem Numbered.innermost_lt (h : Numbered sx seen fs) (node : Option Node) :
    fs.innermost sx node < fs.parent.length := by
  rw [FileScopes.innermost]
  cases hfind : (node.elim [] sx.up.ancestors).findSome? fs.scope? with
  | none => exact h.lt _ _ h.file
  | some i =>
    obtain ⟨x, -, hx⟩ := List.exists_of_findSome?_eq_some hfind
    exact h.lt x i hx

theorem numbered_addScope (h : Numbered sx seen fs) (n : Node) :
    Numbered sx (seen ++ [n]) (addScope sx language fs n) := by
  cases hn : fs.scope? n with
  | some i =>
    have hsame : addScope sx language fs n = fs := by rw [addScope, if_pos (by simp [hn])]
    have hseen := (h.known n).mp (by simp [hn])
    rw [hsame]
    refine ⟨fun x => ?_, h.file, h.lt, h.inj, h.parent_lt⟩
    rw [h.known x, List.mem_append, List.mem_singleton]
    constructor
    · rintro (hx | hx)
      · exact .inl hx
      · exact .inr (.inl hx)
    · rintro (hx | hx | rfl)
      · exact .inl hx
      · exact .inr hx
      · exact hseen
  | none =>
    have hscope : ∀ x, (addScope sx language fs n).scope? x
        = (fs.scope? x).or (if n = x then some fs.parent.length else none) := scope?_addScope hn
    have hlen : (addScope sx language fs n).parent.length = fs.parent.length + 1 := by
      rw [addScope, if_neg (by simp [hn]), List.length_append]
      rfl
    have hlast : (addScope sx language fs n).parentOf fs.parent.length
        = fs.innermost sx (sx.parent n) := by
      rw [addScope, if_neg (by simp [hn]), FileScopes.parentOf]
      simp
    -- a scope of the longer table is an old one, or the new one with the last number
    have hcases : ∀ x i, (addScope sx language fs n).scope? x = some i →
        fs.scope? x = some i ∨ n = x ∧ i = fs.parent.length := by
      intro x i hx
      rw [hscope] at hx
      cases hxs : fs.scope? x with
      | some j =>
        rw [hxs, Option.some_or] at hx
        exact .inl hx
      | none =>
        rw [hxs, Option.none_or] at hx
        split at hx
        case isTrue heq => exact .inr ⟨heq, (Option.some.inj hx).symm⟩
        case isFalse => cases hx
    refine ⟨fun x => ?_, scope?_addScope_of_some h.file, fun x i hx => ?_, fun x y i hx hy => ?_,
      fun i hpos hi => ?_⟩
    · rw [hscope, Option.isSome_or, Bool.or_eq_true, h.known x, List.mem_append, List.mem_singleton,
        or_assoc]
      by_cases hx : n = x
      · simp [hx]
      · simp [hx, Ne.symm hx]
    · rw [hlen]
      rcases hcases x i hx with hold | ⟨-, rfl⟩
      · exact Nat.lt_succ_of_lt (h.lt x i hold)
      · exact Nat.lt_succ_self _
    · rcases hcases x i hx with hold | ⟨hnx, rfl⟩ <;> rcases hcases y _ hy with hold' | ⟨hny, hi⟩
      · exact h.inj x y i hold hold'
      · exact absurd (h.lt x i hold) (by omega)
      · exact absurd (h.lt y _ hold') (lt_irrefl _)
      · exact hnx.symm.trans hny
    · rcases Nat.lt_or_ge i fs.parent.length with hlt | hge
      · rw [parentOf_addScope hlt]
        exact h.parent_lt i hpos hlt
      · obtain rfl : i = fs.parent.length := by omega
        rw [hlast]
        exact h.innermost_lt _

theorem numbered_foldl (h : Numbered sx seen fs) (l : List Node) :
    Numbered sx (seen ++ l) (l.foldl (addScope sx language) fs) := by
  induction l generalizing seen fs with
  | nil => rwa [List.append_nil]
  | cons x l ih =>
    rw [List.foldl_cons, List.append_cons]
    exact ih (numbered_addScope h x)

theorem scope?_foldl_of_some {x : Node} (hx : fs.scope? x = some i) (l : List Node) :
    (l.foldl (addScope sx language) fs).scope? x = some i := by
  induction l generalizing fs with
  | nil => exact hx
  | cons y l ih => exact ih (scope?_addScope_of_some hx)

theorem parentOf_foldl (hi : i < fs.parent.length) (l : List Node) :
    (l.foldl (addScope sx language) fs).parentOf i = fs.parentOf i := by
  induction l generalizing fs with
  | nil => rfl
  | cons y l ih => rw [List.foldl_cons, ih (hi.trans_le length_addScope_le), parentOf_addScope hi]

/-- The scopes that are numbered before a node. -/
def scopesBefore (sx : Parsed Node) (language : String) (nodes : List Node) (n : Node) :
    FileScopes Node :=
  ((sortBy (scopeKey sx) nodes).takeWhile (· ≠ n)).foldl (addScope sx language)
    (FileScopes.ofFile sx language)

theorem numbered_addScopes (sx : Parsed Node) (language : String) (nodes : List Node) :
    Numbered sx (sortBy (scopeKey sx) nodes) (addScopes sx language nodes) :=
  numbered_foldl (numbered_ofFile sx language) _

theorem numbered_scopesBefore (sx : Parsed Node) (language : String) (nodes : List Node) (n : Node) :
    Numbered sx ((sortBy (scopeKey sx) nodes).takeWhile (· ≠ n))
      (scopesBefore sx language nodes n) := numbered_foldl (numbered_ofFile sx language) _

theorem exists_sorted_split (sx : Parsed Node) (hn : n ∈ nodes) : ∃ back, sortBy (scopeKey sx) nodes
    = (sortBy (scopeKey sx) nodes).takeWhile (· ≠ n) ++ n :: back := by
  have hmem : n ∈ sortBy (scopeKey sx) nodes := (mem_sortBy _).mpr hn
  obtain ⟨front, back, hsplit, hfront⟩ := List.eq_append_cons_of_mem hmem
  refine ⟨back, ?_⟩
  have htake : (front ++ n :: back).takeWhile (· ≠ n) = front := by
    rw [List.takeWhile_append_of_pos]
    · simp
    · intro x hx
      have hne : x ≠ n := fun h => hfront (h ▸ hx)
      simpa using hne
  rw [hsplit, htake]

/-- A scope node is numbered next, under the scope of the nearest ancestor that is numbered. -/
theorem scope_of_first (language : String) (hn : n ∈ nodes) (hroot : n ≠ sx.root) :
    (addScopes sx language nodes).scope? n = some (scopesBefore sx language nodes n).parent.length
      ∧ (addScopes sx language nodes).parentOf (scopesBefore sx language nodes n).parent.length
        = (scopesBefore sx language nodes n).innermost sx (sx.parent n) := by
  obtain ⟨back, hsplit⟩ := exists_sorted_split sx hn
  have hnone : (scopesBefore sx language nodes n).scope? n = none := by
    rw [← Option.not_isSome_iff_eq_none, (numbered_scopesBefore sx language nodes n).known]
    rintro (h | h)
    · exact hroot h
    · simpa using List.mem_takeWhile_imp h
  have hfinal : addScopes sx language nodes
      = back.foldl (addScope sx language)
          (addScope sx language (scopesBefore sx language nodes n) n) := by
    rw [addScopes, hsplit, List.foldl_append, List.foldl_cons]
    rfl
  have hlen : (scopesBefore sx language nodes n).parent.length
      < (addScope sx language (scopesBefore sx language nodes n) n).parent.length := by
    rw [addScope, if_neg (by simp [hnone]), List.length_append]
    exact Nat.lt_succ_self _
  rw [hfinal]
  constructor
  · refine scope?_foldl_of_some ?_ back
    rw [scope?_addScope hnone, hnone, if_pos rfl]
    rfl
  · rw [parentOf_foldl hlen, addScope, if_neg (by simp [hnone]), FileScopes.parentOf]
    simp

theorem scope?_of_before (hn : n ∈ nodes)
    (hm : (scopesBefore sx language nodes n).scope? m = some i) :
    (addScopes sx language nodes).scope? m = some i := by
  obtain ⟨back, hsplit⟩ := exists_sorted_split sx hn
  have hfinal : addScopes sx language nodes
      = (n :: back).foldl (addScope sx language) (scopesBefore sx language nodes n) := by
    rw [addScopes, hsplit, List.foldl_append]
    rfl
  rw [hfinal]
  exact scope?_foldl_of_some hm _

end Numbering

/-! ## The scope that a scope lies in -/

section Parents

variable {sx : Parsed Node} {language : String} {fs : FileScopes Node} {nodes seen : List Node}
  {n m p : Node}

theorem isScope_iff : sx.isScope nodes n = true ↔ n = sx.root ∨ n ∈ nodes := by
  rw [Parsed.isScope, Bool.or_eq_true, decide_eq_true_eq, List.contains_iff_mem]

theorem scopesAround_ne_nil (sx : Parsed Node) (nodes : List Node) (n : Node) :
    sx.scopesAround nodes n ≠ [] :=
  List.ne_nil_of_mem (List.mem_filter.mpr
    ⟨ParentTree.root_mem_ancestors (t := sx.up) n, isScope_iff.mpr (.inl rfl)⟩)

theorem exists_enclosing (nodes : List Node) (hroot : n ≠ sx.root) : ∃ m, sx.enclosing nodes n = some m := by
  obtain ⟨p, hp⟩ := ParentTree.exists_parent (t := sx.up) hroot
  obtain ⟨m, rest, hm⟩ := List.exists_cons_of_ne_nil (scopesAround_ne_nil sx nodes p)
  exact ⟨m, by rw [Parsed.enclosing, show sx.parent n = some p from hp, Option.bind_some, hm]; rfl⟩

/-- The innermost scope of a node, where the first scope node around it has a number and no other
node has. -/
theorem innermost_eq {i : ℕ} (honly : ∀ x, (fs.scope? x).isSome → sx.isScope nodes x = true)
    (hm : (sx.scopesAround nodes p).head? = some m) (hi : fs.scope? m = some i) :
    fs.innermost sx (some p) = i := by
  rw [Parsed.scopesAround, List.head?_filter] at hm
  obtain ⟨-, front, back, hsplit, hfront⟩ := List.find?_eq_some_iff_append.mp hm
  have hnone : front.findSome? fs.scope? = none := by
    refine List.findSome?_eq_none_iff.mpr fun x hx => ?_
    by_contra hsome
    have hscope := honly x (Option.isSome_iff_ne_none.mpr hsome)
    simpa [hscope] using hfront x hx
  show ((sx.up.ancestors p).findSome? fs.scope?).getD 0 = i
  rw [hsplit, List.findSome?_append, hnone, Option.none_or, List.findSome?_cons, hi]
  rfl

/-- A node lies within the nodes around it, so it sorts after them. -/
theorem scopeKey_le_of_enclosing (hm : sx.enclosing nodes n = some m) :
    scopeKey sx m ≤ scopeKey sx n ∧ sx.isScope nodes m = true := by
  obtain ⟨p, hp, hhead⟩ := Option.bind_eq_some_iff.mp hm
  obtain ⟨hanc, hscope⟩ := List.mem_filter.mp (List.mem_of_mem_head? hhead)
  have hspan : sx.start m ≤ sx.start p ∧ sx.finish p ≤ sx.finish m :=
    ParentTree.rel_of_mem_ancestors (t := sx.up)
      (r := fun a b => sx.start a ≤ sx.start b ∧ sx.finish b ≤ sx.finish a)
      (fun _ => ⟨le_refl _, le_refl _⟩)
      (fun _ _ _ hab hbc => ⟨hab.1.trans hbc.1, hbc.2.trans hab.2⟩) sx.nested hanc
  have hnode := sx.nested n p hp
  refine ⟨Prod.Lex.toLex_le_toLex.mpr ?_, hscope⟩
  rcases (hspan.1.trans hnode.1).lt_or_eq with hlt | heq
  · exact .inl hlt
  · exact .inr ⟨heq, OrderDual.toDual_le_toDual.mpr (hnode.2.trans hspan.2)⟩

theorem Numbered.exists_innermost (h : Numbered sx seen fs) (node : Option Node) :
    ∃ x, fs.scope? x = some (fs.innermost sx node) := by
  rw [FileScopes.innermost]
  cases hfind : (node.elim [] sx.up.ancestors).findSome? fs.scope? with
  | none => exact ⟨sx.root, h.file⟩
  | some i =>
    obtain ⟨x, -, hx⟩ := List.exists_of_findSome?_eq_some hfind
    exact ⟨x, hx⟩

theorem isScope_of_before {x : Node} (hx : ((scopesBefore sx language nodes n).scope? x).isSome) :
    sx.isScope nodes x = true := by
  refine isScope_iff.mpr (((numbered_scopesBefore sx language nodes n).known x).mp hx |>.imp_right ?_)
  intro hmem
  exact (mem_sortBy _).mp ((List.takeWhile_prefix _).subset hmem)

/-- A scope is recorded under the node that encloses it exactly when that node is numbered first. -/
theorem parentRight_iff (hn : n ∈ nodes) (hroot : n ≠ sx.root) (hm : sx.enclosing nodes n = some m) :
    (∃ m i j, sx.enclosing nodes n = some m ∧ (addScopes sx language nodes).scope? n = some i
        ∧ (addScopes sx language nodes).scope? m = some j
        ∧ (addScopes sx language nodes).parentOf i = j)
      ↔ m = sx.root ∨ m ∈ (sortBy (scopeKey sx) nodes).takeWhile (· ≠ n) := by
  obtain ⟨hscope, hparent⟩ := scope_of_first language hn hroot
  rw [← (numbered_scopesBefore sx language nodes n).known]
  obtain ⟨p, hp, hhead⟩ := Option.bind_eq_some_iff.mp hm
  constructor
  · rintro ⟨m', i, j, hm', hi, hj, hij⟩
    obtain rfl := Option.some.inj (hm.symm.trans hm')
    obtain rfl := Option.some.inj (hscope.symm.trans hi)
    -- the recorded scope is of a node that was numbered before, and it is the enclosing one's
    obtain ⟨x, hx⟩ := (numbered_scopesBefore sx language nodes n).exists_innermost (sx.parent n)
    rw [← hparent, hij] at hx
    have hxm := (numbered_addScopes sx language nodes).inj x m j (scope?_of_before hn hx) hj
    rw [← hxm, hx]
    rfl
  · intro hknown
    obtain ⟨j, hj⟩ := Option.isSome_iff_exists.mp hknown
    refine ⟨m, _, j, hm, hscope, scope?_of_before hn hj, ?_⟩
    rw [hparent, hp]
    exact innermost_eq (fun x => isScope_of_before) hhead hj

/-- Scopes are recorded under the nodes that enclose them exactly when, of nodes of one span, the outer
is delivered first. -/
theorem parentsRight_iff (sx : Parsed Node) (language : String) (nodes : List Node) :
    ParentsRight sx nodes (addScopes sx language nodes) ↔ OuterFirst sx nodes := by
  have hbefore : ∀ n ∈ nodes, ∀ m, sx.enclosing nodes n = some m → m ≠ sx.root →
      (m ∈ (sortBy (scopeKey sx) nodes).takeWhile (· ≠ n)
        ↔ (sx.start m = sx.start n → sx.finish m = sx.finish n → m ∈ nodes.takeWhile (· ≠ n))) := by
    intro n hn m hm hroot
    obtain ⟨hle, hscope⟩ := scopeKey_le_of_enclosing hm
    have hmem : m ∈ nodes := (isScope_iff.mp hscope).resolve_left hroot
    have hkey : scopeKey sx m = scopeKey sx n ↔ sx.start m = sx.start n ∧ sx.finish m = sx.finish n := by
      rw [scopeKey, scopeKey, toLex_inj, Prod.mk.injEq, OrderDual.toDual_inj]
    rw [mem_takeWhile_sortBy_iff _ hmem hn hle]
    constructor
    · rintro (hlt | ⟨-, hfirst⟩) hstart hfinish
      · exact absurd (hkey.mpr ⟨hstart, hfinish⟩) hlt.ne
      · exact hfirst
    · intro h
      rcases hle.lt_or_eq with hlt | heq
      · exact .inl hlt
      · exact .inr ⟨heq, h (hkey.mp heq).1 (hkey.mp heq).2⟩
  constructor
  · intro hright n hn hroot m hm hmroot
    have hfirst := (parentRight_iff hn hroot hm).mp (hright n hn hroot)
    exact (hbefore n hn m hm hmroot).mp (hfirst.resolve_left hmroot)
  · intro houter n hn hroot
    obtain ⟨m, hm⟩ := exists_enclosing nodes hroot
    refine (parentRight_iff hn hroot hm).mpr ?_
    by_cases hmroot : m = sx.root
    · exact .inl hmroot
    · exact .inr ((hbefore n hn m hm hmroot).mpr (houter n hn hroot m hm hmroot))

end Parents

/-! ## What a call is bound to -/

section Binding

variable {sx : Parsed Node} {language : String} {fs : FileScopes Node} {nodes seen : List Node}
  {n m p : Node}

theorem scopesAround_of_parent (hp : sx.parent n = some p) : sx.scopesAround nodes n
    = if sx.isScope nodes n then n :: sx.scopesAround nodes p else sx.scopesAround nodes p := by
  rw [Parsed.scopesAround, ParentTree.ancestors_of_parent (t := sx.up) hp, List.filter_cons]
  rfl

theorem showsAt_eq {start i : ℕ} {name : String} (hi : fs.scope? n = some i) :
    fs.showsAt start name n = (fs.shows start name i).map fun d => (i, d) := by
  rw [FileScopes.showsAt, hi, Option.bind_some]

theorem bindingFrom_eq (h : Numbered sx seen fs) (hright : ParentsRight sx nodes fs) (start : ℕ)
    (name : String) (n : Node) :
    ∀ m i fuel, (sx.scopesAround nodes n).head? = some m → fs.scope? m = some i → i < fuel →
      fs.bindingFrom start name fuel i
        = some ((sx.scopesAround nodes n).findSome? (fs.showsAt start name)) := by
  -- up the tree; the numbers of the scopes fall on the way, which is what the fuel pays
  induction n using ParentTree.induction (t := sx.up) with
  | hroot =>
    intro m i fuel hm hi hlt
    have haround : sx.scopesAround nodes sx.root = [sx.root] := by
      have hanc : sx.up.ancestors sx.root = [sx.root] := ParentTree.ancestors_root
      rw [Parsed.scopesAround, hanc, List.filter_cons_of_pos (isScope_iff.mpr (.inl rfl)),
        List.filter_nil]
    have hm' : (sx.scopesAround nodes sx.root).head? = some m := hm
    show _ = some ((sx.scopesAround nodes sx.root).findSome? _)
    rw [haround] at hm' ⊢
    obtain rfl := Option.some.inj hm'
    obtain rfl := Option.some.inj (h.file.symm.trans hi)
    obtain ⟨k, rfl⟩ := Nat.exists_eq_succ_of_ne_zero (Nat.ne_zero_of_lt hlt)
    rw [FileScopes.bindingFrom, List.findSome?_cons, showsAt_eq hi]
    cases fs.shows start name 0 <;> rfl
  | hparent n p hp ih =>
    intro m i fuel hm hi hlt
    rw [scopesAround_of_parent hp] at hm ⊢
    split at hm
    -- not a scope: the walk is still at the one around it
    case isFalse hscope =>
      rw [if_neg hscope]
      exact ih m i fuel hm hi hlt
    case isTrue hscope =>
      rw [if_pos hscope, List.findSome?_cons]
      obtain rfl : n = m := Option.some.inj hm
      obtain ⟨k, rfl⟩ := Nat.exists_eq_succ_of_ne_zero (Nat.ne_zero_of_lt hlt)
      have hroot : n ≠ sx.root := by
        rintro rfl
        exact absurd ((sx.parent_eq_none_iff sx.root).mpr rfl) (by rw [show sx.parent _ = _ from hp]; simp)
      rw [FileScopes.bindingFrom, showsAt_eq hi]
      cases hshow : fs.shows start name i with
      | some d => rfl
      -- nothing shown here: the recorded parent is the scope around this one
      | none =>
        have hpos : i ≠ 0 := by
          rintro rfl
          exact hroot (h.inj n sx.root 0 hi h.file)
        obtain ⟨m', i', j, henc, hi', hj, hij⟩ :=
          hright n ((isScope_iff.mp hscope).resolve_left hroot) hroot
        obtain rfl := Option.some.inj (hi.symm.trans hi')
        have hup : (sx.scopesAround nodes p).head? = some m' := by
          rwa [Parsed.enclosing, show sx.parent n = some p from hp, Option.bind_some] at henc
        have hlt' := h.parent_lt i (Nat.pos_of_ne_zero hpos) (h.lt n i hi)
        simp only [if_neg hpos, hij, Option.map_none]
        exact ih m' j k hup hj (by omega)

theorem bindsInnermost_of_parentsRight (h : Numbered sx seen fs)
    (hknown : ∀ x, (fs.scope? x).isSome ↔ sx.isScope nodes x = true)
    (hright : ParentsRight sx nodes fs) : BindsInnermost sx nodes fs := by
  intro node name fuel hfuel
  obtain ⟨m, rest, hm⟩ := List.exists_cons_of_ne_nil (scopesAround_ne_nil sx nodes node)
  have hhead : (sx.scopesAround nodes node).head? = some m := by rw [hm]; rfl
  have hscope : sx.isScope nodes m = true :=
    (List.mem_filter.mp (List.mem_of_mem_head? hhead)).2
  obtain ⟨i, hi⟩ := Option.isSome_iff_exists.mp ((hknown m).mpr hscope)
  have hstart : fs.innermost sx (some node) = i :=
    innermost_eq (fun x => (hknown x).mp) hhead hi
  rw [FileScopes.binding]
  exact bindingFrom_eq h hright _ name node m _ fuel hhead (hstart ▸ hi)
    (hstart ▸ (h.lt m i hi).trans_le hfuel)

end Binding

/-! ## What definitions of one name record -/

section Records

variable {es es' : List Entry}

/-- A value may define, an import may be an alias, and no other definition. -/
structure Entry.WellFormed (e : Entry) : Prop where
  defines : e.defines = true → e.kind = .value
  aliased : e.aliased ≠ none → e.kind = .imported

/-- What a slot holds once entries are recorded in it. -/
def recordAll (slot : Option Def) (es : List Entry) : Option Def :=
  es.foldl (fun slot e => some (record slot e)) slot

theorem record_kind (d : Def) (e : Entry) :
    (record (some d) e).kind = if d.kind.rank ≤ e.kind.rank then e.kind else d.kind := by
  by_cases hvalue : e.kind = .value <;> simp only [record, Option.getD_some, hvalue, if_true, if_false]
    <;> split <;> rfl

theorem record_defines (d : Def) (e : Entry) :
    (record (some d) e).defines = (d.defines && (e.kind != .value || e.defines)) := by
  by_cases hvalue : e.kind = .value <;> simp only [record, Option.getD_some, hvalue, if_true, if_false]
    <;> split <;> simp [hvalue]

theorem record_aliased (d : Def) (e : Entry) :
    (record (some d) e).aliased = if d.kind.rank ≤ e.kind.rank then e.aliased else d.aliased := by
  by_cases hvalue : e.kind = .value <;> simp only [record, Option.getD_some, hvalue, if_true, if_false]
    <;> split <;> rfl

theorem record_none (e : Entry) :
    record none e = { kind := e.kind, defines := e.defines, aliased := e.aliased } := by
  unfold record
  by_cases hvalue : e.kind = .value <;> simp [hvalue]

theorem recordAll_cons (slot : Option Def) (e : Entry) (es : List Entry) :
    recordAll slot (e :: es) = recordAll (some (record slot e)) es := rfl

/-- A kind over the one that is recorded. -/
def overKind (k k' : DefKind) : DefKind := if k.rank ≤ k'.rank then k' else k

/-- What is recorded of further entries: a kind and a flag that are functions of the kinds and of the
values, and the alias of an entry of that kind. -/
theorem recordAll_some (d : Def) (es : List Entry) : ∃ d', recordAll (some d) es = some d'
    ∧ d'.kind = (es.map Entry.kind).foldl overKind d.kind
    ∧ d'.defines = (d.defines && es.all fun e => e.kind != .value || e.defines)
    ∧ (d'.kind = d.kind ∧ d'.aliased = d.aliased
      ∨ ∃ e ∈ es, e.kind = d'.kind ∧ e.aliased = d'.aliased) := by
  induction es generalizing d with
  | nil => exact ⟨d, rfl, rfl, by simp, .inl ⟨rfl, rfl⟩⟩
  | cons e es ih =>
    obtain ⟨d', hd', hkind, hdefines, halias⟩ := ih (record (some d) e)
    refine ⟨d', hd', ?_, ?_, ?_⟩
    · rw [hkind, record_kind]
      rfl
    · rw [hdefines, record_defines, List.all_cons, Bool.and_assoc]
    · rcases halias with ⟨hk, ha⟩ | ⟨e', he', hk, ha⟩
      · rw [record_kind] at hk
        rw [record_aliased] at ha
        split at hk
        case isTrue hrank =>
          rw [if_pos hrank] at ha
          exact .inr ⟨e, List.mem_cons_self, hk.symm, ha.symm⟩
        case isFalse hrank =>
          rw [if_neg hrank] at ha
          exact .inl ⟨hk, ha⟩
      · exact .inr ⟨e', List.mem_cons_of_mem _ he', hk, ha⟩

/-- What is recorded of entries: a value that comes first defines when all values do. -/
theorem recordAll_none {e : Entry} (hwell : e.WellFormed) (es : List Entry) :
    ∃ d, recordAll none (e :: es) = some d
      ∧ d.kind = (es.map Entry.kind).foldl overKind e.kind
      ∧ d.defines = (e.kind == .value && (e :: es).all fun e => e.kind != .value || e.defines)
      ∧ ∃ e' ∈ e :: es, e'.kind = d.kind ∧ e'.aliased = d.aliased := by
  obtain ⟨d, hd, hkind, hdefines, halias⟩ := recordAll_some (record none e) es
  rw [record_none] at hd hkind hdefines halias
  refine ⟨d, by rw [recordAll_cons, record_none]; exact hd, hkind, ?_, ?_⟩
  · rw [hdefines, List.all_cons]
    cases hd : e.defines with
    | true => simp [hwell.defines hd]
    | false => by_cases hvalue : e.kind = .value <;> simp [hvalue]
  · rcases halias with ⟨hk, ha⟩ | ⟨e', he', hk, ha⟩
    · exact ⟨e, List.mem_cons_self, hk.symm, ha.symm⟩
    · exact ⟨e', List.mem_cons_of_mem _ he', hk, ha⟩

/-- Entries in another order, with their kinds in the same order, record the same binding. -/
theorem sameBinding_of_perm (hperm : es'.Perm es)
    (hkinds : es'.map Entry.kind = es.map Entry.kind) (hwell : ∀ e ∈ es, e.WellFormed) :
    recordAll none es = none ∧ recordAll none es' = none
      ∨ ∃ d d', recordAll none es = some d ∧ recordAll none es' = some d' ∧ SameBinding es d d' := by
  cases es with
  | nil =>
    rw [hperm.eq_nil]
    exact .inl ⟨rfl, rfl⟩
  | cons e es =>
    cases es' with
    | nil => simp at hkinds
    | cons e' es' =>
      rw [List.map_cons, List.map_cons, List.cons.injEq] at hkinds
      have hwell' : ∀ e ∈ e' :: es', e.WellFormed := fun x hx => hwell x (hperm.mem_iff.mp hx)
      obtain ⟨d, hd, hkind, hdefines, a, ha, hak, haa⟩ :=
        recordAll_none (hwell e List.mem_cons_self) es
      obtain ⟨d', hd', hkind', hdefines', a', ha', hak', haa'⟩ :=
        recordAll_none (hwell' e' List.mem_cons_self) es'
      have hsame : d.kind = d'.kind := by rw [hkind, hkind', hkinds.1, hkinds.2]
      refine .inr ⟨d, d', hd, hd', hsame, ?_, ?_⟩
      · rw [hdefines, hdefines', hkinds.1, hperm.all_eq]
      · by_cases himport : d.kind = .imported
        · exact .inr ⟨himport, ⟨a, ha, hak.trans himport, haa⟩,
            a', hperm.mem_iff.mp ha', hak'.trans (hsame.symm.trans himport), haa'⟩
        · -- an entry that is no import has no alias
          have hnone : a.aliased = none := by
            by_contra h
            exact himport (hak.symm.trans ((hwell a ha).aliased h))
          have hnone' : a'.aliased = none := by
            by_contra h
            exact himport (hsame.trans (hak'.symm.trans ((hwell' a' ha').aliased h)))
          exact .inl (haa.symm.trans (hnone.trans (hnone'.symm.trans haa')))

/-- An initialised value may define, and only an import takes an alias. -/
theorem wellFormed_entryOf (fs : FileScopes Node) (sx : Parsed Node) (language : String)
    (d : PendingDef Node) : (fs.entryOf sx language d).2.WellFormed := by
  constructor
  · intro h
    simp only [FileScopes.entryOf, Bool.and_eq_true, decide_eq_true_eq] at h ⊢
    exact h.1
  · intro h
    by_contra hkind
    simp only [FileScopes.entryOf] at h hkind
    rw [if_neg fun hboth => hkind hboth.1] at h
    -- an alias is left only where a `require` was found, which is an import
    cases hreq : (if d.kind = .value then requiredName sx d.node language else none) with
    | none => simp [hreq] at h
    | some name => simp [hreq] at hkind

/-! ### The slots of a file -/

/-- Two files with the same scopes. -/
structure SameScopes (fs fs' : FileScopes Node) : Prop where
  scopeOfNode : fs'.scopeOfNode = fs.scopeOfNode
  parent : fs'.parent = fs.parent

variable {sx : Parsed Node} {language : String} {fs fs' : FileScopes Node} {nodes : List Node}

theorem SameScopes.scope? (h : SameScopes fs fs') : fs'.scope? = fs.scope? := by
  funext n
  rw [FileScopes.scope?, FileScopes.scope?, h.scopeOfNode]

omit [DecidableEq Node] in
theorem SameScopes.parentOf (h : SameScopes fs fs') : fs'.parentOf = fs.parentOf := by
  funext i
  rw [FileScopes.parentOf, FileScopes.parentOf, h.parent]

theorem SameScopes.innermost (h : SameScopes fs fs') : fs'.innermost sx = fs.innermost sx := by
  funext node
  rw [FileScopes.innermost, FileScopes.innermost, h.scope?]

theorem SameScopes.entryOf (h : SameScopes fs fs') (d : PendingDef Node) :
    fs'.entryOf sx language d = fs.entryOf sx language d := by
  simp only [FileScopes.entryOf, FileScopes.scopeOfDef, h.innermost, h.parentOf, h.scope?]

theorem sameScopes_foldl (fs : FileScopes Node) (defs : List (PendingDef Node)) :
    SameScopes fs (defs.foldl (addDef sx language) fs) := by
  induction defs generalizing fs with
  | nil => exact ⟨rfl, rfl⟩
  | cons d defs ih => exact ⟨(ih (addDef sx language fs d)).scopeOfNode, (ih (addDef sx language fs d)).parent⟩

theorem get_foldl (fs : FileScopes Node) (key : ℕ ×ₗ String) (defs : List (PendingDef Node)) :
    (defs.foldl (addDef sx language) fs).defs.get key = recordAll (fs.defs.get key)
      (((defs.map (fs.entryOf sx language)).filter fun e => e.1 = key).map Prod.snd) := by
  induction defs generalizing fs with
  | nil => rfl
  | cons d defs ih =>
    have hsame : SameScopes fs (addDef sx language fs d) := ⟨rfl, rfl⟩
    rw [List.foldl_cons, ih, List.map_cons, List.filter_cons]
    have hentry : (addDef sx language fs d).entryOf sx language = fs.entryOf sx language :=
      funext hsame.entryOf
    have hdefs : (addDef sx language fs d).defs = fs.defs.insert (fs.entryOf sx language d).1
        (record (fs.defs.get (fs.entryOf sx language d).1) (fs.entryOf sx language d).2) := rfl
    rw [hentry, hdefs]
    by_cases hkey : (fs.entryOf sx language d).1 = key
    · subst hkey
      rw [SortedMap.get_insert_self, if_pos (decide_eq_true rfl), List.map_cons, recordAll_cons]
    · rw [SortedMap.get_insert_of_ne _ _ (Ne.symm hkey), if_neg (by simpa using hkey)]

theorem defs_addScopes (sx : Parsed Node) (language : String) (nodes : List Node)
    (key : ℕ ×ₗ String) : (addScopes sx language nodes).defs.get key = none := by
  have hfold : ∀ (l : List Node) (fs : FileScopes Node),
      (l.foldl (addScope sx language) fs).defs = fs.defs := by
    intro l
    induction l with
    | nil => exact fun _ => rfl
    | cons n l ih =>
      intro fs
      rw [List.foldl_cons, ih, addScope]
      split <;> rfl
  rw [addScopes, hfold]
  rfl

theorem get_analyseNodes (sx : Parsed Node) (language : String) (nodes : List Node)
    (defs : List (PendingDef Node)) (key : ℕ ×ₗ String) :
    (analyseNodes sx language nodes defs).defs.get key
      = recordAll none (entriesOf sx language nodes key defs) := by
  rw [analyseNodes, get_foldl, defs_addScopes, entriesOf]

/-- What a slot holds does not depend on the order of definitions of one kind. -/
theorem orderFree (sx : Parsed Node) (language : String) (nodes : List Node) :
    OrderFree sx language nodes := by
  intro defs defs' hperm hkinds key
  rw [get_analyseNodes, get_analyseNodes]
  refine sameBinding_of_perm (((hperm.map _).filter _).map _) (hkinds key) fun e he => ?_
  obtain ⟨slot, hslot, rfl⟩ := List.mem_map.mp he
  obtain ⟨d, -, rfl⟩ := List.mem_map.mp (List.mem_filter.mp hslot).1
  exact wellFormed_entryOf _ sx language d

end Records

/-! ## The law -/

section Law

variable {sx : Parsed Node} {language : String} {nodes : List Node}

theorem sameScopes_analyseNodes (sx : Parsed Node) (language : String) (nodes : List Node)
    (defs : List (PendingDef Node)) :
    SameScopes (addScopes sx language nodes) (analyseNodes sx language nodes defs) :=
  sameScopes_foldl _ defs

theorem numbered_analyseNodes (sx : Parsed Node) (language : String) (nodes : List Node)
    (defs : List (PendingDef Node)) :
    Numbered sx (sortBy (scopeKey sx) nodes) (analyseNodes sx language nodes defs) := by
  have h := numbered_addScopes sx language nodes
  have hsame := sameScopes_analyseNodes sx language nodes defs
  constructor <;> simp only [hsame.scope?, hsame.parentOf, hsame.parent]
  · exact h.known
  · exact h.file
  · exact h.lt
  · exact h.inj
  · exact h.parent_lt

theorem parentsRight_analyseNodes (language : String) (defs : List (PendingDef Node)) :
    ParentsRight sx nodes (analyseNodes sx language nodes defs) ↔ OuterFirst sx nodes := by
  have hsame := sameScopes_analyseNodes sx language nodes defs
  rw [← parentsRight_iff sx language nodes, ParentsRight, ParentsRight, hsame.scope?, hsame.parentOf]

end Law

/-- The scopes of a file, its bindings and its slots are lawful exactly when, of nested scope nodes of
one span, the outer is delivered first. -/
theorem localsLaw_iff (sx : Parsed Node) (language : String) (nodes : List Node) :
    LocalsLaw sx language nodes ↔ OuterFirst sx nodes := by
  constructor
  · intro h
    exact (parentsRight_analyseNodes language []).mp (h.1 []).1
  · intro h
    refine ⟨fun defs => ?_, orderFree sx language nodes⟩
    have hright := (parentsRight_analyseNodes language defs).mpr h
    have hnumbered := numbered_analyseNodes sx language nodes defs
    refine ⟨hright, bindsInnermost_of_parentsRight hnumbered (fun x => ?_) hright⟩
    rw [hnumbered.known, isScope_iff, mem_sortBy]

/-- The nodes of a file that is one block with one statement. -/
inductive BlockNode where
  | file
  | block
  | statement
  deriving DecidableEq

/-- The one statement of the block has its span. -/
def statementInBlock : Parsed BlockNode where
  source := "f() {g()}".toList
  root := .file
  kind
    | .file => "source_file"
    | .block => "statements"
    | .statement => "if_statement"
  isNamed _ := true
  isExtra _ := false
  start
    | .file => 0
    | _ => 5
  finish
    | .file => 9
    | _ => 8
  children
    | .file => [.block]
    | .block => [.statement]
    | .statement => []
  parent
    | .file => none
    | .block => some .file
    | .statement => some .block
  prevSiblings _ := []
  nextSiblings _ := []
  childByFieldName _ _ := none
  depth
    | .file => 0
    | .block => 1
    | .statement => 2
  parent_eq_none_iff n := by cases n <;> decide
  depth_parent n p h := by cases n <;> cases p <;> first | rfl | cases h
  nested n p h := by cases n <;> cases p <;> first | exact ⟨by decide, by decide⟩ | cases h

theorem not_localsLaw_of_inner_first :
    ¬ LocalsLaw statementInBlock "swift" [.statement, .block] := by
  intro h
  have houter := (parentsRight_analyseNodes _ []).mp (h.1 []).1
  have hbefore := houter .statement (by decide) (by decide) .block rfl (by decide) rfl rfl
  exact absurd hbefore (by decide)

end Graph
end Inkentry
