/-
  Inkentry.GitNotes.FoldOrder

  What the fold of the notes log depends on.  A merge of two machines' logs
  sorts the lines and drops repeated ones, so the fold has to be a function of
  the set of lines, whatever their order and however often one occurs.

  The merged fields are (`mergedOnto_congr`).  The fields taken from the base
  copy are exactly when the copies that tie for base agree on them
  (`foldOrderIndependent_iff`): `baseKey` compares five of the thirteen.  A
  repeated line adds one more condition, because a group of one copy is not put
  into normal form and a group of two is (`foldSetDetermined_iff`).
-/

import Inkentry.GitNotes.FoldSpec

namespace Inkentry
namespace GitNotes

open FirstMin SortedSet

/-! ## The conditions -/

/-- Copies tied for base agree on all a fold takes from its base. -/
def BaseTiesAgree (sha : String → String) (records : List NoteRecord) : Prop :=
  ∀ key a b, IsKeyMin baseKey (groupOf sha records key) a →
    IsKeyMin baseKey (groupOf sha records key) b →
    unkeyed a = unkeyed b ∧
      (a.status = b.status ∨ ∃ r ∈ groupOf sha records key, r.status = "archived")

/-- The lines of one entity, in log order. -/
def linesOf (sha : String → String) (lines : List (String × NoteRecord)) (entity : String) :
    List (String × NoteRecord) :=
  lines.filter fun p => p.2.resolveEntityId sha = entity

/-- Copies tied for base are on one commit. -/
def AnchorTiesAgree (sha : String → String) (lines : List (String × NoteRecord)) : Prop :=
  ∀ entity p q, IsKeyMin (fun p => baseKey p.2) (linesOf sha lines entity) p →
    IsKeyMin (fun p => baseKey p.2) (linesOf sha lines entity) q → p.1 = q.1

/-- Tags, linked files and edges are sorted and free of repeats. -/
def NoteRecord.NormalForm (r : NoteRecord) : Prop :=
  Canonical r.tags ∧ Canonical r.linkedFiles ∧ Canonical r.edges

/-- A record that is all there is of its entity, repeats aside, is in normal form. -/
def SoleCopiesNormal (sha : String → String) (records : List NoteRecord) : Prop :=
  ∀ r ∈ records, (∀ x ∈ records, x.resolveEntityId sha = r.resolveEntityId sha → x = r) →
    NoteRecord.NormalForm r

/-! ## One group -/

variable {sha : String → String}
variable {g : List NoteRecord} {records : List NoteRecord}
variable {a b : NoteRecord} {r : NoteRecord}

/-- Base copies that agree on the base-sourced fields give the same record. -/
theorem mergedOnto_base_congr {s : Option String} (hkey : baseKey a = baseKey b)
    (hunkeyed : unkeyed a = unkeyed b) (hstatus : foldedStatus g a = foldedStatus g b) :
    { mergedOnto a g with supersededByEntityId := s }
      = { mergedOnto b g with supersededByEntityId := s } := by
  simp only [unkeyed, Prod.mk.injEq] at hunkeyed
  obtain ⟨hkind, htitle, hbody, hentity, horigin, hop, hpatch⟩ := hunkeyed
  obtain ⟨hcreated, hid, href, hremote, hsup⟩ := baseKey_eq_iff.mp hkey
  simp only [mergedOnto, hstatus, hkind, htitle, hbody, hentity, horigin, hop, hpatch, hcreated,
    hid, href, hremote, hsup]

/-- The same in terms of statuses: one archived copy settles the status. -/
theorem foldedStatus_eq_iff :
    foldedStatus g a = foldedStatus g b
      ↔ a.status = b.status ∨ ∃ r ∈ g, r.status = "archived" := by
  by_cases h : ∃ r ∈ g, r.status = "archived"
  · rw [foldedStatus, foldedStatus, if_pos h, if_pos h]
    exact iff_of_true rfl (.inr h)
  · rw [foldedStatus, foldedStatus, if_neg h, if_neg h]
    exact (or_iff_left h).symm

/-- Merging nothing but copies of `r` onto `r` only puts its vectors in order. -/
theorem mergedOnto_of_forall_eq (hne : g ≠ []) (h : ∀ x ∈ g, x = r) :
    mergedOnto r g = { r with
      tags := sortDedup r.tags
      linkedFiles := sortDedup r.linkedFiles
      edges := sortDedup r.edges } := by
  have hmem : ∀ x, x ∈ g ↔ x ∈ [r] := by
    intro x
    rw [List.mem_singleton]
    refine ⟨h x, ?_⟩
    rintro rfl
    obtain ⟨y, hy⟩ := List.exists_mem_of_ne_nil g hne
    exact h y hy ▸ hy
  rw [mergedOnto_congr r hmem]
  by_cases hs : r.status = "archived" <;> simp [mergedOnto, foldedStatus, earliest, minSome, hs]

theorem mergedOnto_eq_self_iff (hne : g ≠ [])
    (h : ∀ x ∈ g, x = r) : mergedOnto r g = r ↔ NoteRecord.NormalForm r := by
  rw [mergedOnto_of_forall_eq hne h]
  constructor
  · intro heq
    refine ⟨?_, ?_, ?_⟩
    · exact sortDedup_eq_self_iff.mp (congrArg NoteRecord.tags heq)
    · exact sortDedup_eq_self_iff.mp (congrArg NoteRecord.linkedFiles heq)
    · exact sortDedup_eq_self_iff.mp (congrArg NoteRecord.edges heq)
  · rintro ⟨htags, hfiles, hedges⟩
    rw [sortDedup_eq_self_iff.mpr htags, sortDedup_eq_self_iff.mpr hfiles,
      sortDedup_eq_self_iff.mpr hedges]

/-- Past one copy, or on a normal one, a fold is the merge of the whole group. -/
theorem foldGroup_eq_mergedOnto {base : NoteRecord} (hbase : g.argmin baseKey = some base)
    (h : g.length ≠ 1 ∨ NoteRecord.NormalForm base) :
    foldGroup g = some { mergedOnto base g with
      supersededByEntityId := resolveSupersededByEntityId g } := by
  rw [foldGroup_eq hbase]
  by_cases hone : g.length = 1
  · obtain ⟨r, rfl⟩ := List.length_eq_one_iff.mp hone
    obtain rfl : base = r := by simpa using (List.argmin_mem hbase)
    have hnormal := h.resolve_left (not_not.mpr hone)
    have hself : mergedOnto base [base] = base :=
      (mergedOnto_eq_self_iff (List.cons_ne_nil _ _) (by simp)).mpr hnormal
    rw [if_pos hone, hself]
  · rw [if_neg hone]

/-- Groups with the same records fold alike, if their tied bases agree and each
    is merged in full. -/
theorem foldGroup_congr {g g' : List NoteRecord} (hmem : ∀ r, r ∈ g ↔ r ∈ g')
    (hties : ∀ a b, IsKeyMin baseKey g a → IsKeyMin baseKey g b →
      unkeyed a = unkeyed b ∧ (a.status = b.status ∨ ∃ r ∈ g, r.status = "archived"))
    (hfull : g.length ≠ 1 ∨ ∀ r ∈ g, NoteRecord.NormalForm r)
    (hfull' : g'.length ≠ 1 ∨ ∀ r ∈ g', NoteRecord.NormalForm r) :
    foldGroup g = foldGroup g' := by
  by_cases hg : g = []
  · subst hg
    obtain rfl : g' = [] := List.eq_nil_iff_forall_not_mem.mpr fun x hx => by
      simpa using (hmem x).mpr hx
    rfl
  · have hg' : g' ≠ [] := by
      obtain ⟨x, hx⟩ := List.exists_mem_of_ne_nil g hg
      exact List.ne_nil_of_mem ((hmem x).mp hx)
    obtain ⟨a, ha⟩ := exists_argmin_of_ne_nil baseKey hg
    obtain ⟨b, hb⟩ := exists_argmin_of_ne_nil baseKey hg'
    have hamin := argmin_isKeyMin ha
    have hbmin : IsKeyMin baseKey g b := (argmin_isKeyMin hb).congr fun x => (hmem x).symm
    have hkey : baseKey a = baseKey b :=
      le_antisymm (hamin.2 b hbmin.1) (hbmin.2 a hamin.1)
    obtain ⟨hunkeyed, hstatus⟩ := hties a b hamin hbmin
    rw [foldGroup_eq_mergedOnto ha (hfull.imp_right fun h => h a hamin.1),
      foldGroup_eq_mergedOnto hb (hfull'.imp_right fun h => h b (List.argmin_mem hb)),
      ← resolveSupersededByEntityId_congr hmem, ← mergedOnto_congr b hmem,
      mergedOnto_base_congr hkey hunkeyed (foldedStatus_eq_iff.mpr hstatus)]

/-- Two orders of a group that put `a` and `b` first fold alike only if `a` and
    `b` agree on what a base supplies. -/
theorem ties_agree_of_foldGroup_eq {g ga gb : List NoteRecord} (hga : ∀ r, r ∈ ga ↔ r ∈ g)
    (hgb : ∀ r, r ∈ gb ↔ r ∈ g) (ha : ga.argmin baseKey = some a) (hb : gb.argmin baseKey = some b)
    (h : foldGroup ga = foldGroup gb) :
    unkeyed a = unkeyed b ∧ (a.status = b.status ∨ ∃ r ∈ g, r.status = "archived") := by
  obtain ⟨f, hf⟩ := Option.isSome_iff_exists.mp
    (foldGroup_isSome (List.ne_nil_of_mem (List.argmin_mem ha)))
  obtain ⟨hua, -, hsa⟩ := foldGroup_base ha hf
  obtain ⟨hub, -, hsb⟩ := foldGroup_base hb (h ▸ hf)
  have hstatus : foldedStatus g a = foldedStatus g b := by
    have hca : foldedStatus ga a = foldedStatus g a := by simp only [foldedStatus, hga]
    have hcb : foldedStatus gb b = foldedStatus g b := by simp only [foldedStatus, hgb]
    rw [← hca, ← hcb, ← hsa, ← hsb]
  exact ⟨hua.symm.trans hub, foldedStatus_eq_iff.mp hstatus⟩

/-- A key-minimal copy at the front of the log is the base of its entity. -/
theorem argmin_groupOf_cons {records rest : List NoteRecord} {key : String}
    (hr : IsKeyMin baseKey (groupOf sha records key) r) (hperm : (r :: rest).Perm records) :
    (groupOf sha (r :: rest) key).argmin baseKey = some r := by
  have hcons : groupOf sha (r :: rest) key = r :: groupOf sha rest key := by
    simp [groupOf, (mem_groupOf.mp hr.1).2]
  rw [hcons]
  refine argmin_cons_of_le fun q hq => hr.2 q ?_
  obtain ⟨hqrest, hqkey⟩ := mem_groupOf.mp hq
  exact mem_groupOf.mpr ⟨hperm.mem_iff.mp (List.mem_cons_of_mem r hqrest), hqkey⟩

/-- If each key-minimal copy can be moved to the front without changing the
    fold, tied copies agree. -/
theorem baseTiesAgree_of_fronts
    (h : ∀ r ∈ records, ∃ rest, (r :: rest).Perm records ∧ (foldRecords sha (r :: rest)).Perm (foldRecords sha records))
    : BaseTiesAgree sha records := by
  intro key a b ha hb
  obtain ⟨resta, hperma, hfolda⟩ := h a (mem_groupOf.mp ha.1).1
  obtain ⟨restb, hpermb, hfoldb⟩ := h b (mem_groupOf.mp hb.1).1
  have hbasea := argmin_groupOf_cons ha hperma
  have hbaseb := argmin_groupOf_cons hb hpermb
  exact ties_agree_of_foldGroup_eq (fun _ => (hperma.filter _).mem_iff)
    (fun _ => (hpermb.filter _).mem_iff) hbasea hbaseb
    (foldGroup_eq_of_perm (hfolda.trans hfoldb.symm) key
      (List.ne_nil_of_mem (List.argmin_mem hbasea)))

/-! ## The order of the lines -/

variable {l l' : List NoteRecord}

/-- Every order of the lines folds to the same records on the same commits. -/
def FoldOrderIndependent (sha : String → String) (lines : List (String × NoteRecord)) : Prop :=
  ∀ lines', lines'.Perm lines →
    (foldRecords sha (lines'.map Prod.snd)).Perm (foldRecords sha (lines.map Prod.snd))
      ∧ anchorCommits sha lines' = anchorCommits sha lines

theorem foldRecords_perm_of_ties (hperm : l'.Perm l)
    (hties : BaseTiesAgree sha l) : (foldRecords sha l').Perm (foldRecords sha l) := by
  refine foldRecords_perm_of_groups fun key => ?_
  have hgroup : (groupOf sha l' key).Perm (groupOf sha l key) := hperm.filter _
  by_cases hone : (groupOf sha l key).length = 1
  · obtain ⟨r, hr⟩ := List.length_eq_one_iff.mp hone
    rw [hr] at hgroup ⊢
    rw [List.perm_singleton.mp hgroup]
  · have hone' : (groupOf sha l' key).length ≠ 1 := hgroup.length_eq ▸ hone
    exact (foldGroup_congr (fun r => hgroup.mem_iff.symm) (hties key) (.inl hone)
      (.inl hone')).symm

theorem anchorCommits_eq_of_ties {l l' : List (String × NoteRecord)} (hperm : l'.Perm l)
    (hties : AnchorTiesAgree sha l) : anchorCommits sha l' = anchorCommits sha l := by
  funext entity
  rw [anchorCommits_eq, anchorCommits_eq]
  have hmem : ∀ p, p ∈ linesOf sha l entity ↔ p ∈ linesOf sha l' entity :=
    fun p => ((hperm.filter _).mem_iff).symm
  exact (argmin_map_congr hmem fun p q hp hq => hties entity p q hp hq).symm

/-- Moving a line to the front of the log makes it the base of its entity, if
    no other copy has a smaller key. -/
theorem argmin_linesOf_move_front {lines : List (String × NoteRecord)} {entity : String}
    {p : String × NoteRecord} (hp : IsKeyMin (fun p => baseKey p.2) (linesOf sha lines entity) p) :
    (linesOf sha (p :: lines.erase p) entity).argmin (fun p => baseKey p.2) = some p := by
  have hent : p.2.resolveEntityId sha = entity := by
    simpa using (List.mem_filter.mp hp.1).2
  have hcons : linesOf sha (p :: lines.erase p) entity
      = p :: linesOf sha (lines.erase p) entity := by
    simp [linesOf, hent]
  rw [hcons]
  refine argmin_cons_of_le fun q hq => hp.2 q ?_
  have hq' := List.mem_filter.mp hq
  exact List.mem_filter.mpr ⟨List.mem_of_mem_erase hq'.1, hq'.2⟩

/-- The fold does not depend on the order of the lines exactly when the copies
    that tie for base agree, on the commit they are on included. -/
theorem foldOrderIndependent_iff (sha : String → String) (lines : List (String × NoteRecord)) :
    FoldOrderIndependent sha lines
      ↔ BaseTiesAgree sha (lines.map Prod.snd) ∧ AnchorTiesAgree sha lines := by
  constructor
  · intro h
    have hfront : ∀ {p}, p ∈ lines → (p :: lines.erase p).Perm lines :=
      fun hp => (List.perm_cons_erase hp).symm
    constructor
    · refine baseTiesAgree_of_fronts fun r hr => ?_
      obtain ⟨p, hp, rfl⟩ := List.mem_map.mp hr
      exact ⟨(lines.erase p).map Prod.snd, (hfront hp).map Prod.snd, (h _ (hfront hp)).1⟩
    · intro entity p q hp hq
      have hanchor : ∀ {r}, IsKeyMin (fun p => baseKey p.2) (linesOf sha lines entity) r →
          anchorCommits sha (r :: lines.erase r) entity = some r.1 := by
        intro r hr
        rw [anchorCommits_eq]
        exact congrArg (Option.map Prod.fst) (argmin_linesOf_move_front hr)
      have hap := congrFun (h _ (hfront (List.mem_filter.mp hp.1).1)).2 entity
      have haq := congrFun (h _ (hfront (List.mem_filter.mp hq.1).1)).2 entity
      rw [hanchor hp] at hap
      rw [hanchor hq, ← hap] at haq
      exact (Option.some.inj haq).symm
  · rintro ⟨hbase, hanchor⟩ lines' hperm
    exact ⟨foldRecords_perm_of_ties (hperm.map _) hbase, anchorCommits_eq_of_ties hperm hanchor⟩

/-! ### Two lines of one entry that tie

    The same decision recorded twice at one second, as the first row of two
    fresh machines; only one of them was told who the author is. -/

/-- The hash of the one entry the two lines are copies of. -/
def axumSha (_ : String) : String :=
  "cc308a1ca5d849191e1710cc9def561377a9ef37e4fcb895e5aa3b1896e43603"

/-- A line as `record_from_note` writes it for a fresh entry. -/
def axumLine (origin : Option Origin) (tags : List String) : NoteRecord where
  schemaVersion := 1
  id := 1
  kind := "decision"
  title := "HTTP layer"
  body := "use axum"
  tags := tags
  linkedFiles := []
  createdAt := 1700000000
  status := "active"
  sourceRef := none
  validAt := none
  invalidAt := none
  supersededBy := none
  remoteId := none
  entityId := some (entityId axumSha "decision" "HTTP layer" "use axum")
  supersededByEntityId := none
  edges := []
  origin := origin
  op := none
  patchId := none

/-- Whichever line comes first supplies the origin. -/
theorem not_foldOrderIndependent_of_origin :
    ¬ FoldOrderIndependent axumSha
      [("1f0c", axumLine (some ⟨.human, none, none⟩) []), ("1f0c", axumLine none [])] := by
  intro h
  have hfold := (h _ (List.Perm.swap _ _ _)).1
  have hdiff : foldRecords axumSha [axumLine none [], axumLine (some ⟨.human, none, none⟩) []]
      = [axumLine none []] := by rfl
  have hsame : foldRecords axumSha [axumLine (some ⟨.human, none, none⟩) [], axumLine none []]
      = [axumLine (some ⟨.human, none, none⟩) []] := by rfl
  simp only [List.map_cons, List.map_nil, hdiff, hsame, List.perm_singleton] at hfold
  simp [axumLine] at hfold

/-! ## The set of the lines -/

/-- The fold is a function of the set of the records, and a fixed point of folding. -/
def FoldSetDetermined (sha : String → String) (records : List NoteRecord) : Prop :=
  (∀ records', (∀ r, r ∈ records' ↔ r ∈ records) →
    (foldRecords sha records').Perm (foldRecords sha records))
  ∧ foldRecords sha (foldRecords sha records) = foldRecords sha records

theorem foldRecords_of_nodup (h : (records.map (NoteRecord.resolveEntityId sha)).Nodup) :
    foldRecords sha records = records := by
  have hsole : ∀ r ∈ records, foldGroup (groupOf sha records (r.resolveEntityId sha)) = some r := by
    intro r hr
    have hnd : records.Nodup := h.of_map
    have hgroup : (groupOf sha records (r.resolveEntityId sha)).Perm [r] := by
      refine (List.perm_ext_iff_of_nodup (hnd.filter _) (List.nodup_singleton r)).mpr fun x => ?_
      rw [List.mem_singleton]
      refine mem_groupOf.trans ⟨?_, ?_⟩
      · rintro ⟨hx, hkey⟩
        exact List.inj_on_of_nodup_map h hx hr hkey
      · rintro rfl
        exact ⟨hr, rfl⟩
    rw [List.perm_singleton.mp hgroup, foldGroup_singleton]
  rw [foldRecords_eq, groupRecords_order_of_nodup sha h, List.filterMap_map]
  exact (List.filterMap_congr hsole).trans List.filterMap_some

theorem foldRecords_idem (sha : String → String) (records : List NoteRecord) :
    foldRecords sha (foldRecords sha records) = foldRecords sha records :=
  foldRecords_of_nodup (foldRecords_nodup sha records)

/-- A group with more than one record in it, or a normal sole one, is merged in full. -/
theorem full_of_soleCopiesNormal (hmem : ∀ r, r ∈ l' ↔ r ∈ l) (hsole : SoleCopiesNormal sha l)
    (key : String) :
    (groupOf sha l' key).length ≠ 1 ∨ ∀ r ∈ groupOf sha l' key, NoteRecord.NormalForm r := by
  by_cases hone : (groupOf sha l' key).length = 1
  · obtain ⟨r, hr⟩ := List.length_eq_one_iff.mp hone
    right
    intro x hx
    obtain ⟨hxl, hxkey⟩ := mem_groupOf.mp hx
    refine hsole x ((hmem x).mp hxl) fun y hy hykey => ?_
    have hyg : y ∈ groupOf sha l' key := mem_groupOf.mpr ⟨(hmem y).mpr hy, hykey.trans hxkey⟩
    rw [hr, List.mem_singleton] at hx hyg
    rw [hx, hyg]
  · exact .inl hone

theorem foldRecords_perm_of_mem_iff (hmem : ∀ r, r ∈ l' ↔ r ∈ l) (hties : BaseTiesAgree sha l)
    (hsole : SoleCopiesNormal sha l) : (foldRecords sha l').Perm (foldRecords sha l) := by
  refine foldRecords_perm_of_groups fun key => ?_
  have hgroup : ∀ r, r ∈ groupOf sha l key ↔ r ∈ groupOf sha l' key := fun r => by
    rw [mem_groupOf, mem_groupOf, hmem]
  exact (foldGroup_congr hgroup (hties key) (full_of_soleCopiesNormal (fun _ => Iff.rfl) hsole key)
    (full_of_soleCopiesNormal hmem hsole key)).symm

/-- A log that folds as its set does has no sole copy out of normal form: a
    second copy of the line would put it in order. -/
theorem soleCopiesNormal_of_foldSetDetermined
    (h : ∀ records', (∀ r, r ∈ records' ↔ r ∈ records) → (foldRecords sha records').Perm (foldRecords sha records))
    : SoleCopiesNormal sha records := by
  intro r hr hsole
  -- the group of `r` once, and twice
  have hother : ∀ x ∈ records, x.resolveEntityId sha = r.resolveEntityId sha → x = r := hsole
  have hrest : groupOf sha (records.filter fun x => x ≠ r) (r.resolveEntityId sha) = [] := by
    refine List.filter_eq_nil_iff.mpr fun x hx => ?_
    have hx' := List.mem_filter.mp hx
    have hne : x ≠ r := by simpa using hx'.2
    simpa using fun hkey => hne (hother x hx'.1 hkey)
  have hgroup : ∀ copies : List NoteRecord, (∀ x ∈ copies, x = r) →
      groupOf sha (copies ++ records.filter fun x => x ≠ r) (r.resolveEntityId sha) = copies := by
    intro copies hcopies
    have hall : groupOf sha copies (r.resolveEntityId sha) = copies :=
      List.filter_eq_self.mpr fun x hx => by simp [hcopies x hx]
    unfold groupOf at hall hrest ⊢
    rw [List.filter_append, hall, hrest, List.append_nil]
  have hmem : ∀ copies : List NoteRecord, copies ≠ [] → (∀ x ∈ copies, x = r) → ∀ x,
      x ∈ copies ++ records.filter (fun x => x ≠ r) ↔ x ∈ records := by
    intro copies hne hcopies x
    rw [List.mem_append, List.mem_filter]
    by_cases hxr : x = r
    · subst hxr
      obtain ⟨y, hy⟩ := List.exists_mem_of_ne_nil copies hne
      exact iff_of_true (.inl (hcopies y hy ▸ hy)) hr
    · have hnot : x ∉ copies := fun hx => hxr (hcopies x hx)
      simp [hxr, hnot]
  have honce := h _ (hmem [r] (List.cons_ne_nil _ _) (by simp))
  have htwice := h _ (hmem [r, r] (List.cons_ne_nil _ _) (by simp))
  have hfold := foldGroup_eq_of_perm (htwice.trans honce.symm) (r.resolveEntityId sha)
    (by rw [hgroup _ (by simp)]; exact List.cons_ne_nil _ _)
  rw [hgroup _ (by simp), hgroup _ (by simp), foldGroup_singleton] at hfold
  have hargmin : ([r, r] : List NoteRecord).argmin baseKey = some r :=
    argmin_cons_of_le fun b hb => by rw [List.mem_singleton.mp hb]
  rw [foldGroup_eq_mergedOnto hargmin (.inl (by simp)), Option.some_inj] at hfold
  have hmerged := mergedOnto_of_forall_eq (r := r) (g := [r, r]) (List.cons_ne_nil _ _) (by simp)
  rw [hmerged] at hfold
  refine ⟨?_, ?_, ?_⟩
  · exact sortDedup_eq_self_iff.mp (congrArg NoteRecord.tags hfold)
  · exact sortDedup_eq_self_iff.mp (congrArg NoteRecord.linkedFiles hfold)
  · exact sortDedup_eq_self_iff.mp (congrArg NoteRecord.edges hfold)

/-- The fold depends on the set of the records alone exactly when tied base
    copies agree and every sole copy is in normal form already. -/
theorem foldSetDetermined_iff (sha : String → String) (records : List NoteRecord) :
    FoldSetDetermined sha records ↔ BaseTiesAgree sha records ∧ SoleCopiesNormal sha records := by
  constructor
  · rintro ⟨hset, -⟩
    refine ⟨baseTiesAgree_of_fronts fun r hr => ?_, soleCopiesNormal_of_foldSetDetermined hset⟩
    have hperm := (List.perm_cons_erase hr).symm
    exact ⟨records.erase r, hperm, hset _ fun _ => hperm.mem_iff⟩
  · rintro ⟨hties, hsole⟩
    exact ⟨fun l hl => foldRecords_perm_of_mem_iff hl hties hsole, foldRecords_idem sha records⟩

/-- One line keeps its tags as written; the line and its repeat are sorted. -/
theorem not_foldSetDetermined_of_unsorted_tags :
    ¬ FoldSetDetermined axumSha [axumLine none ["http", "api"]] := by
  rintro ⟨hset, -⟩
  have hfold := hset [axumLine none ["http", "api"], axumLine none ["http", "api"]] (by simp)
  have honce : foldRecords axumSha [axumLine none ["http", "api"]]
      = [axumLine none ["http", "api"]] := by rfl
  have htwice : foldRecords axumSha [axumLine none ["http", "api"], axumLine none ["http", "api"]]
      = [axumLine none ["api", "http"]] := by decide
  rw [honce, htwice, List.perm_singleton] at hfold
  simp [axumLine] at hfold

end GitNotes
end Inkentry
