/-
  Inkentry.Memory.SourceRefs

  `memory list --source-ref`: the entries of a commit, which come from two
  places.  A harvested entry has its commit in a column, and an entry that was
  added by hand has it as the commit its note is attached to.  Each place is
  asked for its newest entries, and the two answers are put together and cut
  again.

  What should be listed is the union of the two, cut once (`ListsUnion`).  The
  column is matched with a `LIKE` pattern, which matches more than the prefix
  it is made of, so what is listed is the union of more entries than that.
-/

import Inkentry.Lib.OrderedCut
import Inkentry.Memory.PointInTime

namespace Inkentry
namespace Memory

open GitNotes OrderLimit

/-! ## The two queries -/

/-- SQLite's `LIKE`: a percent sign matches any characters, an underscore any one, and letters match
    in either case. -/
def like : List Char → List Char → Bool
  | [], text => text.isEmpty
  | c :: pattern, text =>
    if c = '%' then text.tails.any (like pattern)
    else
      match text with
      | [] => false
      | d :: rest => (c = '_' || c.toLower = d.toLower) && like pattern rest

/-- What a query leaves open: the order of rows with one creation time. -/
structure RowOrder where
  sort : List Note → List Note
  perm : ∀ l, (sort l).Perm l
  newestFirst : ∀ l, (sort l).Pairwise fun a b => -a.createdAt ≤ -b.createdAt

/-- The orders of the two queries, and how many variables a statement may bind. -/
structure Sqlite where
  bySourceRef : RowOrder
  byEntityId : RowOrder
  maxVariables : Nat

/-- A store whose rows have the identity of their content, which every insert writes and nothing
    updates. -/
structure KeyedStore (sha : String → String) extends Store where
  keyed : ∀ n ∈ rows, n.entityId = noteEntityId sha n

/-- The entries as a query reads them. -/
def Store.entries (s : Store) : List Note := s.rows.map rowToNote

/-- The archived and point-in-time gate of both queries. -/
def visible (includeArchived : Bool) (asOf : Option Int) (n : Note) : Bool :=
  (includeArchived || asOf.isSome || n.status = "active") && asOf.all fun T => rowInWindow T n

/-- `source_ref LIKE 'prefix%'`; a null column matches nothing. -/
def matchesSourceRef (shaPrefix : String) (n : Note) : Bool :=
  n.sourceRef.any fun ref => like (shaPrefix.toList ++ ['%']) ref.toList

/-- `list_filtered` with a source ref alone. -/
def Store.listBySourceRef (order : RowOrder) (s : Store) (shaPrefix : String) (limit : Nat)
    (includeArchived : Bool) (asOf : Option Int) : List Note :=
  (order.sort (s.entries.filter fun n =>
    visible includeArchived asOf n && matchesSourceRef shaPrefix n)).take (min limit 500)

/-- A statement with too many variables fails. -/
def Store.listByEntityIds (sql : Sqlite) (s : Store) (entityIds : List String) (limit : Nat)
    (includeArchived : Bool) (asOf : Option Int) : Option (List Note) :=
  if entityIds.isEmpty then some []
  else if sql.maxVariables < entityIds.length + asOf.toList.length then none
  else
    some ((sql.byEntityId.sort (s.entries.filter fun n =>
      visible includeArchived asOf n && n.entityId ∈ entityIds)).take (min limit 500))

/-- Every commit an entity is anchored to: its base copy's, and those of its anchor records. -/
def allAnchorCommits (sha : String → String) (records : List (String × NoteRecord))
    (entity : String) : List String :=
  (anchorCommits sha records entity).toList
    ++ (records.filter fun p => p.2.op = some "anchor" ∧ p.2.resolveEntityId sha = entity).map
      Prod.fst

/-- The entities with an anchor on a commit of the prefix; `none` where the notes cannot be
    read. -/
def entityIdsAnchoredTo (sha : String → String) (repo : Repo) (shaPrefix : String) :
    Option (List String) :=
  if Carrier.readable repo then
    some (((repo.recordsWithCommit.map fun p => p.2.resolveEntityId sha).dedup).filter fun entity =>
      (allAnchorCommits sha repo.recordsWithCommit entity).any fun commit =>
        shaPrefix.toList.isPrefixOf commit.toList)
  else none

/-! ## The listing -/

/-- One entry that is not listed yet. -/
def pushUnseen (sha : String → String) (listed : List Note) (n : Note) : List Note :=
  if noteEntityId sha n ∈ listed.map (noteEntityId sha) then listed else listed ++ [n]

/-- `augment_with_note_anchored`; where anything fails the listing stays as it is. -/
def augmentWithNoteAnchored (sha : String → String) (sql : Sqlite) (s : Store) (repo : Repo)
    (listed : List Note) (shaPrefix : String) (limit : Nat) (includeArchived : Bool)
    (asOf : Option Int) : List Note :=
  match entityIdsAnchoredTo sha repo shaPrefix with
  | none => listed
  | some anchoredIds =>
    if anchoredIds.isEmpty then listed
    else
      match s.listByEntityIds sql anchoredIds limit includeArchived asOf with
      | none => listed
      | some anchored =>
        if anchored.isEmpty then listed
        else
          (sortBy (fun n : Note => -n.createdAt) (anchored.foldl (pushUnseen sha) listed)).take
            (min limit 500)

/-- `memory list --source-ref` on the local store. -/
def memoryListSourceRef (sha : String → String) (sql : Sqlite) (s : Store) (repo : Repo)
    (shaPrefix : String) (limit : Nat) (includeArchived : Bool) (asOf : Option Int) : List Note :=
  augmentWithNoteAnchored sha sql s repo
    (s.listBySourceRef sql.bySourceRef shaPrefix limit includeArchived asOf) shaPrefix limit
    includeArchived asOf

/-! ## What it should list -/

/-- The column starts with the prefix as it is written. -/
def startsWithRef (shaPrefix : String) (n : Note) : Bool :=
  n.sourceRef.any fun ref => shaPrefix.toList.isPrefixOf ref.toList

/-- The entity is anchored to a commit with the prefix. -/
def isAnchoredTo (sha : String → String) (repo : Repo) (shaPrefix : String) (n : Note) : Bool :=
  n.entityId ∈ (entityIdsAnchoredTo sha repo shaPrefix).getD []

/-- The entries of a commit. -/
def unionOf (sha : String → String) (s : Store) (repo : Repo) (shaPrefix : String)
    (includeArchived : Bool) (asOf : Option Int) : List Note :=
  s.entries.filter fun n => visible includeArchived asOf n
    && (startsWithRef shaPrefix n || isAnchoredTo sha repo shaPrefix n)

/-- The newest entries of the union, as many as the limit has, each entity once. -/
structure ListsUnion (sha : String → String) (s : Store) (repo : Repo) (shaPrefix : String)
    (limit : Nat) (includeArchived : Bool) (asOf : Option Int) (listed : List Note) : Prop where
  union : Cut (fun n : Note => -n.createdAt) (min limit 500)
    (unionOf sha s repo shaPrefix includeArchived asOf) listed
  once : (listed.map Note.entityId).Nodup

/-! ## What it does list -/

/-- A pattern made of a prefix matches whatever starts with it. -/
theorem like_of_prefix {front text : List Char} (h : front <+: text) :
    like (front ++ ['%']) text = true := by
  induction front generalizing text with
  | nil =>
    show text.tails.any (like []) = true
    rw [List.any_eq_true]
    exact ⟨[], (List.mem_tails _ _).mpr List.nil_suffix, rfl⟩
  | cons c front ih =>
    obtain ⟨rest, rfl⟩ := h
    have hrest := ih (List.prefix_append front rest)
    show (if c = '%' then (c :: (front ++ rest)).tails.any (like (front ++ ['%']))
      else (c = '_' || c.toLower = c.toLower) && like (front ++ ['%']) (front ++ rest)) = true
    split
    · rw [List.any_eq_true]
      exact ⟨front ++ rest, (List.mem_tails _ _).mpr (List.suffix_cons c _), hrest⟩
    · rw [hrest, decide_eq_true rfl, Bool.or_true, Bool.and_true]

theorem matchesSourceRef_of_startsWithRef {shaPrefix : String} {n : Note}
    (h : startsWithRef shaPrefix n = true) : matchesSourceRef shaPrefix n = true := by
  unfold startsWithRef at h
  unfold matchesSourceRef
  cases href : n.sourceRef with
  | none =>
    rw [href] at h
    cases h
  | some ref =>
    rw [href] at h
    exact like_of_prefix (List.isPrefixOf_iff_prefix.mp h)

section Listing

variable {sha : String → String} {sql : Sqlite} {s : KeyedStore sha} {repo : Repo}
  {shaPrefix : String} {limit : Nat} {includeArchived : Bool} {asOf : Option Int}

/-- The statement that reads the anchored entries can be prepared. -/
def accepts (sha : String → String) (maxVariables : Nat) (repo : Repo) (shaPrefix : String)
    (asOf : Option Int) : Bool :=
  ((entityIdsAnchoredTo sha repo shaPrefix).getD []).length + asOf.toList.length ≤ maxVariables

/-- The entries that one of the two queries can list. -/
def poolOf (sha : String → String) (maxVariables : Nat) (s : Store) (repo : Repo)
    (shaPrefix : String) (includeArchived : Bool) (asOf : Option Int) : List Note :=
  s.entries.filter fun n => visible includeArchived asOf n
    && (matchesSourceRef shaPrefix n
      || accepts sha maxVariables repo shaPrefix asOf && isAnchoredTo sha repo shaPrefix n)

theorem nodup_entities (s : Store) : (s.entries.map Note.entityId).Nodup := by
  have hsame : s.entries.map Note.entityId = s.rows.map Note.entityId := by
    rw [Store.entries, List.map_map]
    rfl
  rw [hsame]
  exact s.entityUnique

theorem nodup_entries (s : Store) : s.entries.Nodup := (nodup_entities s).of_map _

theorem noteEntityId_inj {n m : Note} (hn : n ∈ s.entries) (hm : m ∈ s.entries)
    (h : noteEntityId sha n = noteEntityId sha m) : n = m := by
  have hkeyed : ∀ n ∈ s.entries, n.entityId = noteEntityId sha n := by
    intro n hn
    obtain ⟨r, hr, rfl⟩ := List.mem_map.mp hn
    exact s.keyed r hr
  refine List.inj_on_of_nodup_map (nodup_entities s.toStore) hn hm ?_
  rw [hkeyed n hn, hkeyed m hm, h]

theorem cut_sort (order : RowOrder) (k : Nat) (l : List Note) :
    Cut (fun n : Note => -n.createdAt) k l ((order.sort l).take k) :=
  ⟨order.sort l, order.perm l, order.newestFirst l, rfl⟩

/-- Listing what is not listed yet leaves what there is in front and adds the rest. -/
theorem foldl_pushUnseen {anchored : List Note} (hanchored : anchored ⊆ s.entries) :
    ∀ {listed : List Note}, listed ⊆ s.entries → listed.Nodup →
      ∃ extra, anchored.foldl (pushUnseen sha) listed = listed ++ extra
        ∧ (listed ++ extra).Nodup
        ∧ ∀ n, n ∈ listed ++ extra ↔ n ∈ listed ∨ n ∈ anchored := by
  induction anchored with
  | nil =>
    intro listed _ hnodup
    refine ⟨[], (List.append_nil listed).symm, ?_, fun n => ?_⟩
    · rw [List.append_nil]
      exact hnodup
    · rw [List.append_nil]
      simp
  | cons n anchored ih =>
    intro listed hlisted hnodup
    have hn : n ∈ s.entries := hanchored List.mem_cons_self
    have hrest : anchored ⊆ s.entries := fun m hm => hanchored (List.mem_cons_of_mem n hm)
    -- an entry whose content is listed is listed
    have hseen : noteEntityId sha n ∈ listed.map (noteEntityId sha) ↔ n ∈ listed := by
      constructor
      · intro hmem
        obtain ⟨m, hm, hsame⟩ := List.mem_map.mp hmem
        exact noteEntityId_inj (hlisted hm) hn hsame ▸ hm
      · exact fun hmem => List.mem_map_of_mem hmem
    by_cases hin : n ∈ listed
    · have hpush : pushUnseen sha listed n = listed := if_pos (hseen.mpr hin)
      obtain ⟨extra, hfold, hnodup', hmem⟩ := ih hrest hlisted hnodup
      refine ⟨extra, ?_, hnodup', fun m => ?_⟩
      · rw [List.foldl_cons, hpush, hfold]
      · rw [hmem m, List.mem_cons]
        constructor
        · rintro (h | h)
          · exact Or.inl h
          · exact Or.inr (Or.inr h)
        · rintro (h | rfl | h)
          · exact Or.inl h
          · exact Or.inl hin
          · exact Or.inr h
    · have hpush : pushUnseen sha listed n = listed ++ [n] := if_neg fun h => hin (hseen.mp h)
      have hlisted' : listed ++ [n] ⊆ s.entries := by
        intro m hm
        obtain hm | hm := List.mem_append.mp hm
        · exact hlisted hm
        · exact List.mem_singleton.mp hm ▸ hn
      have hnodup' : (listed ++ [n]).Nodup := by
        refine List.nodup_append'.mpr ⟨hnodup, List.nodup_singleton n, fun m hm hm' => ?_⟩
        exact hin (List.mem_singleton.mp hm' ▸ hm)
      obtain ⟨extra, hfold, hnodup'', hmem⟩ := ih hrest hlisted' hnodup'
      refine ⟨n :: extra, ?_, ?_, fun m => ?_⟩
      · rw [List.foldl_cons, hpush, hfold, List.append_assoc]
        rfl
      · rw [List.append_assoc] at hnodup''
        exact hnodup''
      · have hsplit : listed ++ n :: extra = listed ++ [n] ++ extra := by
          rw [List.append_assoc]
          rfl
        rw [hsplit, hmem m, List.mem_append, List.mem_singleton, List.mem_cons, or_assoc]

/-- Where nothing is read back from the notes the pool is what the column matches. -/
theorem poolOf_of_not_anchored {maxVariables : Nat}
    (h : ∀ n, (accepts sha maxVariables repo shaPrefix asOf
      && isAnchoredTo sha repo shaPrefix n) = false) :
    poolOf sha maxVariables s.toStore repo shaPrefix includeArchived asOf
      = s.entries.filter fun n => visible includeArchived asOf n && matchesSourceRef shaPrefix n := by
  refine List.filter_congr fun n _ => ?_
  rw [h n, Bool.or_false]

/-- A listing that cuts what the column query found, with what the other query adds. -/
structure Assembled (pool : List Note) (k : Nat) (listed extra answer : List Note) : Prop where
  eq : answer = orderLimit (fun n : Note => -n.createdAt) k (listed ++ extra)
  subset : listed ++ extra ⊆ pool
  nodup : (listed ++ extra).Nodup
  cut : Cut (fun n : Note => -n.createdAt) k pool answer

theorem assembled_alone {pool listed : List Note} {k : Nat} (hpool : pool.Nodup)
    (h : Cut (fun n : Note => -n.createdAt) k pool listed) : Assembled pool k listed [] listed := by
  obtain ⟨hnodup, hsub, -⟩ := (cut_iff hpool).mp h
  refine ⟨?_, ?_, ?_, h⟩
  · rw [List.append_nil, h.orderLimit_eq]
  · rw [List.append_nil]
    exact hsub
  · rw [List.append_nil]
    exact hnodup

theorem exists_assembled (sql : Sqlite) (s : KeyedStore sha) (repo : Repo) (shaPrefix : String)
    (limit : Nat) (includeArchived : Bool) (asOf : Option Int) :
    ∃ extra, Assembled (poolOf sha sql.maxVariables s.toStore repo shaPrefix includeArchived asOf)
      (min limit 500) (s.listBySourceRef sql.bySourceRef shaPrefix limit includeArchived asOf) extra
      (memoryListSourceRef sha sql s.toStore repo shaPrefix limit includeArchived asOf) := by
  have hcolumn := cut_sort sql.bySourceRef (min limit 500)
    (s.entries.filter fun n => visible includeArchived asOf n && matchesSourceRef shaPrefix n)
  have hnodup : ∀ p : Note → Bool, (s.entries.filter p).Nodup := fun p =>
    (nodup_entries s.toStore).filter p
  have hlisted := (cut_iff (hnodup _)).mp hcolumn
  -- where nothing is read back the column query's answer stands
  have halone (heq : memoryListSourceRef sha sql s.toStore repo shaPrefix limit includeArchived asOf
        = s.listBySourceRef sql.bySourceRef shaPrefix limit includeArchived asOf)
      (hnone : ∀ n, (accepts sha sql.maxVariables repo shaPrefix asOf
        && isAnchoredTo sha repo shaPrefix n) = false) :
      ∃ extra, Assembled
        (poolOf sha sql.maxVariables s.toStore repo shaPrefix includeArchived asOf) (min limit 500)
        (s.listBySourceRef sql.bySourceRef shaPrefix limit includeArchived asOf) extra
        (memoryListSourceRef sha sql s.toStore repo shaPrefix limit includeArchived asOf) := by
    rw [heq, poolOf_of_not_anchored hnone]
    exact ⟨[], assembled_alone (hnodup _) hcolumn⟩
  cases hids : entityIdsAnchoredTo sha repo shaPrefix with
  | none =>
    refine halone ?_ fun n => ?_
    · simp only [memoryListSourceRef, augmentWithNoteAnchored, hids]
    · simp [isAnchoredTo, hids]
  | some ids =>
    by_cases hempty : ids = []
    · refine halone ?_ fun n => ?_
      · simp [memoryListSourceRef, augmentWithNoteAnchored, hids, hempty]
      · simp [isAnchoredTo, hids, hempty]
    by_cases hmany : sql.maxVariables < ids.length + asOf.toList.length
    · refine halone ?_ fun n => ?_
      · simp [memoryListSourceRef, augmentWithNoteAnchored, hids, Store.listByEntityIds, hempty,
          hmany]
      · simp [accepts, hids, hmany]
    -- both queries answer
    have hanchored := cut_sort sql.byEntityId (min limit 500)
      (s.entries.filter fun n => visible includeArchived asOf n && n.entityId ∈ ids)
    have hback := (cut_iff (hnodup _)).mp hanchored
    have hread : s.listByEntityIds sql ids limit includeArchived asOf
        = some ((sql.byEntityId.sort (s.entries.filter fun n =>
          visible includeArchived asOf n && n.entityId ∈ ids)).take (min limit 500)) := by
      simp [Store.listByEntityIds, hempty, hmany]
    have hboth : ∀ n, n ∈ poolOf sha sql.maxVariables s.toStore repo shaPrefix includeArchived asOf
        ↔ n ∈ (s.entries.filter fun n =>
            visible includeArchived asOf n && matchesSourceRef shaPrefix n)
          ∨ n ∈ s.entries.filter fun n => visible includeArchived asOf n && n.entityId ∈ ids := by
      intro n
      simp only [poolOf, accepts, isAnchoredTo, hids, Option.getD_some, List.mem_filter,
        Bool.and_eq_true, Bool.or_eq_true, decide_eq_true_eq, not_lt.mp hmany, true_and]
      tauto
    have hin : ∀ p : Note → Bool, s.entries.filter p ⊆ s.entries := fun p _ hn =>
      (List.mem_filter.mp hn).1
    obtain ⟨extra, hfold, hdistinct, hmem⟩ := foldl_pushUnseen
      (fun n hn => hin _ (hback.2.1 hn)) (fun n hn => hin _ (hlisted.2.1 hn)) hlisted.1
    have heq : memoryListSourceRef sha sql s.toStore repo shaPrefix limit includeArchived asOf
        = orderLimit (fun n : Note => -n.createdAt) (min limit 500)
          (s.listBySourceRef sql.bySourceRef shaPrefix limit includeArchived asOf ++ extra) := by
      simp only [memoryListSourceRef, augmentWithNoteAnchored, hids, hread]
      rw [if_neg (by simpa using hempty)]
      split
      case isTrue hnone =>
        -- the notes add nothing
        rw [List.isEmpty_iff.mp hnone, List.foldl_nil] at hfold
        rw [Store.listBySourceRef, ← hfold]
        exact hcolumn.orderLimit_eq.symm
      case isFalse =>
        rw [Store.listBySourceRef, hfold]
        rfl
    refine ⟨extra, heq, ?_, hdistinct, ?_⟩
    · intro n hn
      rw [hboth]
      exact ((hmem n).mp hn).imp (fun h => hlisted.2.1 h) fun h => hback.2.1 h
    · rw [heq]
      exact Cut.merge (hnodup _) (hnodup _) (hnodup _) hdistinct hboth hcolumn hanchored hmem

/-! ## When the two agree -/

/-- The entries that only one of the pool and the union has are behind the cut: those that the
pattern matches beyond the prefix, and those that cannot be read back. -/
structure BehindTheCut (sha : String → String) (maxVariables : Nat) (s : Store) (repo : Repo)
    (shaPrefix : String) (limit : Nat) (includeArchived : Bool) (asOf : Option Int) : Prop where
  beyond : ∀ n ∈ s.entries, visible includeArchived asOf n = true →
    matchesSourceRef shaPrefix n = true → startsWithRef shaPrefix n = false →
    isAnchoredTo sha repo shaPrefix n = false →
    min limit 500 ≤ (poolOf sha maxVariables s repo shaPrefix includeArchived asOf).countP
      fun m => n.createdAt < m.createdAt
  unread : accepts sha maxVariables repo shaPrefix asOf = false → ∀ n ∈ s.entries,
    visible includeArchived asOf n = true → isAnchoredTo sha repo shaPrefix n = true →
    matchesSourceRef shaPrefix n = false →
    min limit 500 ≤ (poolOf sha maxVariables s repo shaPrefix includeArchived asOf).countP
      fun m => n.createdAt ≤ m.createdAt

/-- The order that puts one row in front of the others of its creation time. -/
def favour (x : Note) : RowOrder where
  sort l := sortBy (fun n : Note => -n.createdAt) (if x ∈ l then x :: l.erase x else l)
  perm l := by
    refine (sortBy_perm _ _).trans ?_
    split
    case isTrue h => exact (List.perm_cons_erase h).symm
    case isFalse => exact List.Perm.refl l
  newestFirst l := sortBy_pairwise _ _

theorem favour_sort {x : Note} {l : List Note} (h : x ∈ l) :
    (favour x).sort l = sortBy (fun n : Note => -n.createdAt) (x :: l.erase x) := by
  show sortBy _ (if x ∈ l then x :: l.erase x else l) = _
  rw [if_pos h]

/-- An entry with fewer than `limit` newer ones in the pool is listed under some order. -/
theorem mem_memoryListSourceRef {sql : Sqlite} {x : Note} (horder : sql.bySourceRef = favour x)
    (hx : x ∈ s.entries) (hvisible : visible includeArchived asOf x = true)
    (hmatches : matchesSourceRef shaPrefix x = true)
    (hcount : (poolOf sha sql.maxVariables s.toStore repo shaPrefix includeArchived asOf).countP
      (fun m => decide (-m.createdAt < -x.createdAt)) < min limit 500) :
    x ∈ memoryListSourceRef sha sql s.toStore repo shaPrefix limit includeArchived asOf := by
  obtain ⟨extra, hassembled⟩ :=
    exists_assembled sql s repo shaPrefix limit includeArchived asOf
  have hsub := hassembled.subset
  have hmem : x ∈ s.entries.filter fun n =>
      visible includeArchived asOf n && matchesSourceRef shaPrefix n :=
    List.mem_filter.mpr ⟨hx, by rw [hvisible, hmatches, Bool.and_true]⟩
  have hlisted : s.listBySourceRef sql.bySourceRef shaPrefix limit includeArchived asOf
      = orderLimit (fun n : Note => -n.createdAt) (min limit 500)
        (x :: (s.entries.filter fun n =>
          visible includeArchived asOf n && matchesSourceRef shaPrefix n).erase x) := by
    rw [Store.listBySourceRef, horder, favour_sort hmem]
    rfl
  -- the entry is the first of its creation time in every step
  have hfirst : ((x :: (s.entries.filter fun n => visible includeArchived asOf n
      && matchesSourceRef shaPrefix n).erase x).filter fun b =>
        -b.createdAt = -x.createdAt).head? = some x := by
    rw [List.filter_cons_of_pos (by simp), List.head?_cons]
  have hin : x ∈ s.listBySourceRef sql.bySourceRef shaPrefix limit includeArchived asOf := by
    rw [hlisted]
    refine mem_orderLimit_of_first hfirst (lt_of_le_of_lt ?_ hcount)
    rw [(List.perm_cons_erase hmem).symm.countP_eq]
    refine List.Sublist.countP_le ?_
    exact List.monotone_filter_right _ fun n hn => by
      rw [Bool.and_eq_true] at hn ⊢
      exact ⟨hn.1, by rw [hn.2, Bool.true_or]⟩
  have hhead : ((s.listBySourceRef sql.bySourceRef shaPrefix limit includeArchived asOf
      ++ extra).filter fun b => -b.createdAt = -x.createdAt).head? = some x := by
    have hlistedHead := head?_filter_orderLimit hfirst (hlisted ▸ hin)
    rw [← hlisted] at hlistedHead
    rw [List.filter_append, List.head?_append, hlistedHead]
    rfl
  rw [hassembled.eq]
  refine mem_orderLimit_of_first hhead (lt_of_le_of_lt ?_ hcount)
  exact (List.subperm_of_subset hassembled.nodup hsub).countP_le _

end Listing

/-! ### A prefix in capitals -/

/-- An entry that was harvested from a commit. -/
def harvested : Note :=
  ⟨⟨"n1"⟩, entityId id "decision" "Use WAL" "One writer", "decision", "Use WAL", "One writer", [], [],
    100, "active", none, some "abc1234", none, none, none, none⟩

def harvestedStore : KeyedStore id where
  rows := [harvested]
  edges := []
  uuidUnique := List.nodup_singleton _
  entityUnique := List.nodup_singleton _
  remoteUnique := List.nodup_nil
  keyed _ hn := List.mem_singleton.mp hn ▸ rfl

/-- Rows in table order within one creation time. -/
def tableOrder : RowOrder where
  sort := sortBy fun n : Note => -n.createdAt
  perm l := sortBy_perm _ l
  newestFirst l := sortBy_pairwise _ l

end Memory
end Inkentry
