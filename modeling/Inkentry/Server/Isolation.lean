/-
  Inkentry.Server.Isolation

  Whether a project's searches depend on the other projects of the server.  One
  vector table serves them all and the nearest-k cut is made before the join
  that filters the project, so vectors of other projects, and of the project's
  own archived rows, take places in it.

  What is left of the cut is a prefix of the project's own rows in order of
  distance (`OrderLimit.sortBy_filter_orderLimit`); everything here is about how
  long that prefix is.
-/

import Inkentry.Server.Search

namespace Inkentry
namespace Server

open OrderLimit

variable {Vec D : Type*} [LinearOrder D]

/-! ## The project's own rows -/

variable {db db' : ServerDb Vec} {projectId : Nat}
variable {cond : NoteRow → Bool} {e : Nat × Vec}

/-- A condition that only rows of the project meet. -/
def Within (projectId : Nat) (cond : NoteRow → Bool) : Prop :=
  ∀ n, cond n = true → n.projectId = projectId

theorem within_activeIn (projectId : Nat) : Within projectId (activeIn projectId) := by
  intro n hn
  simpa using (Bool.and_eq_true_iff.mp hn).1

theorem within_activeExcept (projectId : Nat) (excludeRowid : Option Nat) :
    Within projectId (activeExcept projectId excludeRowid) := fun n hn =>
  within_activeIn projectId n (Bool.and_eq_true_iff.mp hn).1

omit [LinearOrder D] in
theorem ServerDb.joins_eq_true_iff {db : ServerDb Vec} :
    db.joins cond e = true ↔ ∃ n, db.row? e.1 = some n ∧ cond n = true := by
  rw [ServerDb.joins, Option.any_eq_true]

theorem AgreeOn.joins_imp (h : AgreeOn projectId db db') (hcond : Within projectId cond)
    (he : db.joins cond e = true) : db'.joins cond e = true := by
  obtain ⟨n, hn, hc⟩ := ServerDb.joins_eq_true_iff.mp he
  exact ServerDb.joins_eq_true_iff.mpr ⟨n, h.row?_of_projectId hn (hcond n hc), hc⟩

theorem AgreeOn.joins_eq (h : AgreeOn projectId db db') (hcond : Within projectId cond)
    (e : Nat × Vec) : db.joins cond e = db'.joins cond e :=
  Bool.eq_iff_iff.mpr ⟨h.joins_imp hcond, h.symm.joins_imp hcond⟩

theorem AgreeOn.owns_eq (h : AgreeOn projectId db db') (e : Nat × Vec) :
    db.owns projectId e.1 = db'.owns projectId e.1 :=
  h.joins_eq (fun _ hn => by simpa using hn) e

/-- The vectors a condition on the project's rows leaves are the same in both. -/
theorem AgreeOn.filter_embeddings (h : AgreeOn projectId db db') {p p' : Nat × Vec → Bool}
    (hp : ∀ e, p e = true → db.owns projectId e.1 = true) (heq : ∀ e, p e = p' e) :
    db.embeddings.filter p = db'.embeddings.filter p' := by
  have hown : db.embeddings.filter p = (db.vectorsOf projectId).filter p := by
    rw [ServerDb.vectorsOf, List.filter_filter]
    refine List.filter_congr fun e _ => ?_
    cases hpe : p e <;> simp [hp e, hpe]
  have hown' : db'.embeddings.filter p' = (db'.vectorsOf projectId).filter p' := by
    rw [ServerDb.vectorsOf, List.filter_filter]
    refine List.filter_congr fun e _ => ?_
    rw [← heq e, ← h.owns_eq e]
    cases hpe : p e <;> simp [hp e, hpe]
  rw [hown, hown', ← h.vectors]
  exact List.filter_congr fun e _ => heq e

theorem ServerDb.owns_of_joins {db : ServerDb Vec} (hcond : Within projectId cond)
    (he : db.joins cond e = true) : db.owns projectId e.1 = true := by
  obtain ⟨n, hn, hc⟩ := ServerDb.joins_eq_true_iff.mp he
  rw [ServerDb.owns, hn]
  simpa using hcond n hc

omit [LinearOrder D] in
theorem AgreeOn.toNote_eq (h : AgreeOn projectId db db') {n : NoteRow} (hmem : n ∈ db.notes)
    (hn : n.projectId = projectId) (d : D) : db.toNote n d = db'.toNote n d := by
  have hsucc : db.successorId n = db'.successorId n := by
    rw [ServerDb.successorId, ServerDb.successorId]
    cases hs : n.supersededBy with
    | none => rfl
    | some r =>
      obtain ⟨m, hm, hmr, hmp⟩ := db.successorInProject n hmem r (by rw [hs]; rfl)
      have hrow : db.row? r = some m := ServerDb.row?_eq_some_iff.mpr ⟨hm, hmr⟩
      have hrow' : db'.row? r = some m := h.row?_of_projectId hrow (hmp.trans hn)
      rw [Option.bind_some, Option.bind_some, hrow, hrow']
  simp only [ServerDb.toNote, hsucc]

/-! ## How far a cut reaches -/

/-- The server's `k` nearest vectors include every row the query is for, or `m` of them. -/
def CutReaches (distance : Vec → Vec → D) (db : ServerDb Vec) (query : Vec)
    (p : Nat × Vec → Bool) (k m : Nat) : Prop :=
  (∀ e ∈ db.embeddings, p e = true → e ∈ db.knn distance query k)
    ∨ m ≤ ((db.knn distance query k).filter p).length

/-- Two prefixes read alike exactly when they are the same prefix. -/
theorem filterMap_take_eq_iff {α β : Type*} {f : α → Option β} {l : List α}
    (htotal : ∀ a ∈ l, (f a).isSome) {m n : Nat} :
    (l.take m).filterMap f = (l.take n).filterMap f ↔ min m l.length = min n l.length := by
  have hlen (m : Nat) : ((l.take m).filterMap f).length = min m l.length := by
    have hall {l : List α} (h : ∀ a ∈ l, (f a).isSome) : (l.filterMap f).length = l.length := by
      induction l with
      | nil => rfl
      | cons a l ih =>
        obtain ⟨b, hb⟩ := Option.isSome_iff_exists.mp (h a List.mem_cons_self)
        rw [List.filterMap_cons_some hb, List.length_cons, List.length_cons,
          ih fun c hc => h c (List.mem_cons_of_mem a hc)]
    rw [hall fun a ha => htotal a (List.mem_of_mem_take ha), List.length_take]
  constructor
  · intro h
    rw [← hlen m, ← hlen n, h]
  · intro h
    have htake : l.take m = l.take n := by
      rw [List.take_eq_take_iff]
      exact h
    rw [htake]

theorem ServerDb.embeddings_nodup (db : ServerDb Vec) : db.embeddings.Nodup :=
  List.Nodup.of_map Prod.fst db.vectorUnique

/-- What is left of the cut, read, is what the first `m` of the project's own rows
    read exactly when the cut reaches that far. -/
theorem read_cut_eq_iff (distance : Vec → Vec → D) (db : ServerDb Vec) (query : Vec)
    (p : Nat × Vec → Bool) {β : Type*} (read : Nat × Vec → Option β)
    (hread : ∀ e, p e = true → (read e).isSome) (k m : Nat) :
    ((sortBy (toQuery distance query) ((db.knn distance query k).filter p)).take m).filterMap read
        = (orderLimit (toQuery distance query) m (db.embeddings.filter p)).filterMap read
      ↔ CutReaches distance db query p k m := by
  have hle : ((db.knn distance query k).filter p).length ≤ (db.embeddings.filter p).length := by
    have hperm := sortBy_perm (toQuery distance query) db.embeddings
    rw [← (hperm.filter p).length_eq]
    exact ((List.take_sublist _ _).filter p).length_le
  have hinit := sortBy_filter_orderLimit (toQuery distance query) p k db.embeddings
  have hall := length_filter_orderLimit_eq_iff (toQuery distance query) p k db.embeddings_nodup
  have htotal : ∀ e ∈ sortBy (toQuery distance query) (db.embeddings.filter p),
      (read e).isSome := fun e he => hread e (List.mem_filter.mp ((mem_sortBy _).mp he)).2
  rw [← ServerDb.knn] at hinit hall
  rw [hinit, List.take_take, CutReaches, ← hall]
  refine (filterMap_take_eq_iff htotal).trans ?_
  rw [length_sortBy]
  omega

/-! ## The three searches -/

/-- What a caller asks of the server about a project. -/
inductive Query (Vec D : Type*) where
  | searchNotes (query : Vec) (limit : Nat)
  | searchNotesForConflicts (query : Vec) (maxDistance : D) (excludeRowid limit : Nat)
  | findCandidates (embedding : Option Vec) (excludeRowid : Option Nat)

/-- The `m` nearest of the project's own active rows. -/
def ServerDb.ownNotes (distance : Vec → Vec → D) (db : ServerDb Vec) (projectId : Nat)
    (query : Vec) (m : Nat) : List (ServerNote D) :=
  (orderLimit (toQuery distance query) m
      (db.embeddings.filter (db.joins (activeIn projectId)))).filterMap
    fun e => (db.row? e.1).map fun n => db.toNote n (distance query e.2)

/-- The `m` nearest of the project's own rows within the distance. -/
def ServerDb.ownConflicts (distance : Vec → Vec → D) (db : ServerDb Vec) (projectId : Nat)
    (query : Vec) (maxDistance : D) (excludeRowid m : Nat) : List (ConflictCandidate D) :=
  (orderLimit (toQuery distance query) m (db.embeddings.filter
      (db.conflictCond distance projectId query maxDistance excludeRowid))).filterMap
    fun e => (db.row? e.1).map fun n => ⟨n.rowid, n.syncId, n.title, distance query e.2⟩

/-- Both databases answer alike, and a search with the nearest of the project's own rows. -/
def Isolated (distance : Vec → Vec → D) (floors : Floors D) (db db' : ServerDb Vec)
    (projectId : Nat) : Query Vec D → Prop
  | .searchNotes query limit =>
    db.searchNotes distance projectId query limit = db'.searchNotes distance projectId query limit
      ∧ db.searchNotes distance projectId query limit
        = db.ownNotes distance projectId query (min limit 100)
      ∧ db'.searchNotes distance projectId query limit
        = db'.ownNotes distance projectId query (min limit 100)
  | .searchNotesForConflicts query maxDistance excludeRowid limit =>
    db.searchNotesForConflicts distance projectId query maxDistance excludeRowid limit
        = db'.searchNotesForConflicts distance projectId query maxDistance excludeRowid limit
      ∧ db.searchNotesForConflicts distance projectId query maxDistance excludeRowid limit
        = db.ownConflicts distance projectId query maxDistance excludeRowid (min limit 50)
      ∧ db'.searchNotesForConflicts distance projectId query maxDistance excludeRowid limit
        = db'.ownConflicts distance projectId query maxDistance excludeRowid (min limit 50)
  | .findCandidates embedding excludeRowid =>
    db.findCandidates distance floors projectId embedding excludeRowid
      = db'.findCandidates distance floors projectId embedding excludeRowid

/-- The project's rows in the candidate pool. -/
def ServerDb.poolHits (distance : Vec → Vec → D) (db : ServerDb Vec) (projectId : Nat)
    (vec : Vec) (excludeRowid : Option Nat) : List (CandidateHit D) :=
  (sortBy (toQuery distance vec)
      ((db.knn distance vec CANDIDATE_POOL).filter
        (db.joins (activeExcept projectId excludeRowid)))).filterMap
    fun e => (db.row? e.1).map fun n => n.toHit (distance vec e.2)

/-- The cuts in both databases reach what the query is for. -/
def CutsReach (distance : Vec → Vec → D) (floors : Floors D) (db db' : ServerDb Vec)
    (projectId : Nat) : Query Vec D → Prop
  | .searchNotes query limit =>
    CutReaches distance db query (db.joins (activeIn projectId)) (min limit 100) (min limit 100)
      ∧ CutReaches distance db' query (db'.joins (activeIn projectId)) (min limit 100)
          (min limit 100)
  | .searchNotesForConflicts query maxDistance excludeRowid limit =>
    CutReaches distance db query
        (db.conflictCond distance projectId query maxDistance excludeRowid) (min limit 50 + 1)
        (min limit 50)
      ∧ CutReaches distance db' query
          (db'.conflictCond distance projectId query maxDistance excludeRowid) (min limit 50 + 1)
          (min limit 50)
  | .findCandidates embedding excludeRowid =>
    ∀ vec ∈ embedding,
      (∀ hit ∈ db.poolHits distance projectId vec excludeRowid,
          hit ∉ db'.poolHits distance projectId vec excludeRowid →
            Crowded floors (db'.poolHits distance projectId vec excludeRowid) hit)
        ∧ ∀ hit ∈ db'.poolHits distance projectId vec excludeRowid,
          hit ∉ db.poolHits distance projectId vec excludeRowid →
            Crowded floors (db.poolHits distance projectId vec excludeRowid) hit

theorem ServerDb.read_isSome {db : ServerDb Vec} {β : Type*} (f : NoteRow → β)
    (he : db.joins cond e = true) : ((db.row? e.1).map f).isSome := by
  obtain ⟨n, hn, -⟩ := ServerDb.joins_eq_true_iff.mp he
  rw [hn]
  rfl

theorem searchNotes_eq_ownNotes_iff (distance : Vec → Vec → D) (db : ServerDb Vec)
    (projectId : Nat) (query : Vec) (limit : Nat) :
    db.searchNotes distance projectId query limit
        = db.ownNotes distance projectId query (min limit 100)
      ↔ CutReaches distance db query (db.joins (activeIn projectId)) (min limit 100)
          (min limit 100) := by
  have hread := read_cut_eq_iff distance db query (db.joins (activeIn projectId))
    (fun e => (db.row? e.1).map fun n => db.toNote n (distance query e.2))
    (fun e he => db.read_isSome _ he) (min limit 100) (min limit 100)
  rw [List.take_of_length_le] at hread
  · exact hread
  · -- the cut has no more rows than it was asked for
    rw [length_sortBy]
    refine (List.length_filter_le _ _).trans ?_
    rw [ServerDb.knn, length_orderLimit]
    omega

theorem searchNotesForConflicts_eq_ownConflicts_iff (distance : Vec → Vec → D)
    (db : ServerDb Vec) (projectId : Nat) (query : Vec) (maxDistance : D)
    (excludeRowid limit : Nat) :
    db.searchNotesForConflicts distance projectId query maxDistance excludeRowid limit
        = db.ownConflicts distance projectId query maxDistance excludeRowid (min limit 50)
      ↔ CutReaches distance db query
          (db.conflictCond distance projectId query maxDistance excludeRowid) (min limit 50 + 1)
          (min limit 50) := by
  refine read_cut_eq_iff distance db query _ _ (fun e he => ?_) (min limit 50 + 1) (min limit 50)
  exact db.read_isSome _ (Bool.and_eq_true_iff.mp he).1

theorem AgreeOn.ownNotes_eq (h : AgreeOn projectId db db') (distance : Vec → Vec → D) (query : Vec)
    (m : Nat) :
    db.ownNotes distance projectId query m = db'.ownNotes distance projectId query m := by
  have hcond := within_activeIn projectId
  rw [ServerDb.ownNotes, ServerDb.ownNotes, h.filter_embeddings
    (fun _ => db.owns_of_joins hcond) (h.joins_eq hcond)]
  refine List.filterMap_congr fun e he => ?_
  obtain ⟨n, hn, hc⟩ := ServerDb.joins_eq_true_iff.mp
    (List.mem_filter.mp (mem_of_mem_orderLimit _ he)).2
  rw [hn, h.symm.row?_of_projectId hn (hcond n hc), Option.map_some, Option.map_some,
    h.symm.toNote_eq (ServerDb.row?_eq_some_iff.mp hn).1 (hcond n hc)]

theorem AgreeOn.ownConflicts_eq (h : AgreeOn projectId db db') (distance : Vec → Vec → D)
    (query : Vec) (maxDistance : D) (excludeRowid m : Nat) :
    db.ownConflicts distance projectId query maxDistance excludeRowid m
      = db'.ownConflicts distance projectId query maxDistance excludeRowid m := by
  have hcond := within_activeExcept projectId (some excludeRowid)
  have hfilter : db.embeddings.filter
        (db.conflictCond distance projectId query maxDistance excludeRowid)
      = db'.embeddings.filter
        (db'.conflictCond distance projectId query maxDistance excludeRowid) := by
    refine h.filter_embeddings (fun e he => ?_) fun e => ?_
    · exact db.owns_of_joins hcond (Bool.and_eq_true_iff.mp he).1
    · rw [ServerDb.conflictCond, ServerDb.conflictCond, h.joins_eq hcond]
  rw [ServerDb.ownConflicts, ServerDb.ownConflicts, ← hfilter]
  refine List.filterMap_congr fun e he => ?_
  obtain ⟨n, hn, hc⟩ := ServerDb.joins_eq_true_iff.mp
    (Bool.and_eq_true_iff.mp (List.mem_filter.mp (mem_of_mem_orderLimit _ he)).2).1
  rw [hn, h.row?_of_projectId hn (hcond n hc)]

/-! ## The candidate pool -/

/-- The pool is a prefix of the project's own rows, read as hits. -/
theorem ServerDb.poolHits_eq (distance : Vec → Vec → D) (db : ServerDb Vec) (projectId : Nat)
    (vec : Vec) (excludeRowid : Option Nat) :
    db.poolHits distance projectId vec excludeRowid
      = ((sortBy (toQuery distance vec) (db.embeddings.filter
          (db.joins (activeExcept projectId excludeRowid)))).take
            ((db.knn distance vec CANDIDATE_POOL).filter
              (db.joins (activeExcept projectId excludeRowid))).length).filterMap
          fun e => (db.row? e.1).map fun n => n.toHit (distance vec e.2) := by
  rw [ServerDb.poolHits, ServerDb.knn, sortBy_filter_orderLimit]

omit [LinearOrder D] in
theorem ServerDb.hits_ids_nodup (distance : Vec → Vec → D) (db : ServerDb Vec) (vec : Vec)
    {l : List (Nat × Vec)} (hl : (l.map Prod.fst).Nodup) :
    ((l.filterMap fun e => (db.row? e.1).map fun n => n.toHit (distance vec e.2)).map
      CandidateHit.id).Nodup := by
  have hread : (l.filterMap fun e => (db.row? e.1).map fun n => n.toHit (distance vec e.2)).map
        CandidateHit.id
      = (l.map Prod.fst).filterMap fun rowid => (db.row? rowid).map NoteRow.syncId := by
    rw [List.map_filterMap, List.filterMap_map]
    refine List.filterMap_congr fun e _ => ?_
    simp [NoteRow.toHit, Function.comp_def]
  rw [hread]
  refine hl.filterMap fun rowid rowid' id hid hid' => ?_
  obtain ⟨n, hn, hnid⟩ := Option.map_eq_some_iff.mp hid
  obtain ⟨n', hn', hnid'⟩ := Option.map_eq_some_iff.mp hid'
  obtain ⟨hmem, hrow⟩ := ServerDb.row?_eq_some_iff.mp hn
  obtain ⟨hmem', hrow'⟩ := ServerDb.row?_eq_some_iff.mp hn'
  have hnn : n = n' := List.inj_on_of_nodup_map db.syncUnique hmem hmem' (hnid.trans hnid'.symm)
  rw [← hrow, ← hrow', hnn]

theorem ServerDb.poolHits_ids_nodup (distance : Vec → Vec → D) (db : ServerDb Vec)
    (projectId : Nat) (vec : Vec) (excludeRowid : Option Nat) :
    ((db.poolHits distance projectId vec excludeRowid).map CandidateHit.id).Nodup := by
  refine db.hits_ids_nodup distance vec ?_
  have hperm := (sortBy_perm (toQuery distance vec) db.embeddings).map Prod.fst
  refine (((sortBy_perm _ _).map Prod.fst).nodup_iff).mpr ?_
  exact (hperm.nodup_iff.mpr db.vectorUnique).sublist
    ((List.filter_sublist.trans (List.take_sublist _ _)).map _)

/-- The two pools are beginnings of one list, the project's own rows in order. -/
theorem AgreeOn.poolHits_eq (h : AgreeOn projectId db db') (distance : Vec → Vec → D) (vec : Vec)
    (excludeRowid : Option Nat) :
    ∃ (own : List (Nat × Vec)) (read : Nat × Vec → Option (CandidateHit D)) (n n' : Nat),
      db.poolHits distance projectId vec excludeRowid = (own.take n).filterMap read
        ∧ db'.poolHits distance projectId vec excludeRowid = (own.take n').filterMap read := by
  have hcond := within_activeExcept projectId excludeRowid
  have hown := h.filter_embeddings (fun _ => db.owns_of_joins hcond) (h.joins_eq hcond)
  refine ⟨_, _, _, ((db'.knn distance vec CANDIDATE_POOL).filter
      (db'.joins (activeExcept projectId excludeRowid))).length,
    db.poolHits_eq distance projectId vec excludeRowid, ?_⟩
  rw [db'.poolHits_eq distance projectId vec excludeRowid, hown]
  refine List.filterMap_congr fun e he => ?_
  obtain ⟨n, hn, hc⟩ := ServerDb.joins_eq_true_iff.mp
    (List.mem_filter.mp ((mem_sortBy _).mp (List.mem_of_mem_take he))).2
  rw [hn, h.symm.row?_of_projectId hn (hcond n hc)]

/-- The candidates are the same in both exactly when the rows only one pool has make no
    difference. -/
theorem AgreeOn.findCandidates_eq_iff (h : AgreeOn projectId db db') (distance : Vec → Vec → D)
    (floors : Floors D) (vec : Vec) (excludeRowid : Option Nat) :
    db.findCandidates distance floors projectId (some vec) excludeRowid
        = db'.findCandidates distance floors projectId (some vec) excludeRowid
      ↔ (∀ hit ∈ db.poolHits distance projectId vec excludeRowid,
            hit ∉ db'.poolHits distance projectId vec excludeRowid →
              Crowded floors (db'.poolHits distance projectId vec excludeRowid) hit)
          ∧ ∀ hit ∈ db'.poolHits distance projectId vec excludeRowid,
            hit ∉ db.poolHits distance projectId vec excludeRowid →
              Crowded floors (db.poolHits distance projectId vec excludeRowid) hit := by
  have hids := db.poolHits_ids_nodup distance projectId vec excludeRowid
  have hids' := db'.poolHits_ids_nodup distance projectId vec excludeRowid
  obtain ⟨own, read, n, n', hpool, hpool'⟩ := h.poolHits_eq distance vec excludeRowid
  show classifyCandidates floors (db.poolHits distance projectId vec excludeRowid) [] none
    = classifyCandidates floors (db'.poolHits distance projectId vec excludeRowid) [] none ↔ _
  rcases Nat.le_total n n' with hle | hle
  · -- the first pool is the shorter one, and has nothing of its own
    have hsub : (db.poolHits distance projectId vec excludeRowid).Sublist
        (db'.poolHits distance projectId vec excludeRowid) := by
      rw [hpool, hpool']
      exact (List.take_sublist_take_left hle).filterMap read
    rw [classifyCandidates_eq_iff floors hids' hsub, and_iff_right]
    exact fun hit hmem hout => absurd (hsub.subset hmem) hout
  · have hsub : (db'.poolHits distance projectId vec excludeRowid).Sublist
        (db.poolHits distance projectId vec excludeRowid) := by
      rw [hpool, hpool']
      exact (List.take_sublist_take_left hle).filterMap read
    rw [eq_comm, classifyCandidates_eq_iff floors hids hsub, and_iff_left]
    exact fun hit hmem hout => absurd (hsub.subset hmem) hout

/-! ## Isolation -/

/-- Two databases that agree on a project answer its queries alike, and its searches in
    full, exactly when the cuts in both reach what the query is for. -/
theorem isolated_iff (distance : Vec → Vec → D) (floors : Floors D) {db db' : ServerDb Vec}
    {projectId : Nat} (h : AgreeOn projectId db db') (query : Query Vec D) :
    Isolated distance floors db db' projectId query
      ↔ CutsReach distance floors db db' projectId query := by
  cases query with
  | searchNotes query limit =>
    rw [Isolated, CutsReach, searchNotes_eq_ownNotes_iff, searchNotes_eq_ownNotes_iff,
      and_iff_right_iff_imp, ← searchNotes_eq_ownNotes_iff, ← searchNotes_eq_ownNotes_iff]
    rintro ⟨hfull, hfull'⟩
    rw [hfull, hfull', h.ownNotes_eq]
  | searchNotesForConflicts query maxDistance excludeRowid limit =>
    rw [Isolated, CutsReach, searchNotesForConflicts_eq_ownConflicts_iff,
      searchNotesForConflicts_eq_ownConflicts_iff, and_iff_right_iff_imp,
      ← searchNotesForConflicts_eq_ownConflicts_iff,
      ← searchNotesForConflicts_eq_ownConflicts_iff]
    rintro ⟨hfull, hfull'⟩
    rw [hfull, hfull', h.ownConflicts_eq]
  | findCandidates embedding excludeRowid =>
    cases embedding with
    | none => simp [Isolated, CutsReach, ServerDb.findCandidates]
    | some vec =>
      rw [Isolated, h.findCandidates_eq_iff, CutsReach]
      simp

/-! ## Another project's entry in the way -/

/-- An entry of a project, with nothing attached. -/
def plainRow (rowid projectId : Nat) (syncId : String) : NoteRow :=
  ⟨rowid, projectId, syncId, "decision", "Use WAL mode", "body", [], [], 100, "active", none, none⟩

/-- One project with one entry. -/
def oneProject : ServerDb Int where
  projects := [⟨1, "alpha", 1, none⟩]
  notes := [plainRow 1 1 "s1"]
  embeddings := [(1, 400)]
  edges := []
  nextRowid := 2
  slugUnique := by decide
  rowidUnique := by decide
  syncUnique := by decide
  remoteUnique := by decide
  rowidsBelow := by decide
  vectorUnique := by decide
  vectorRows := by decide
  successorInProject := by decide

/-- The same beside a project whose entry is nearer to the origin. -/
def twoProjects : ServerDb Int where
  projects := [⟨1, "alpha", 1, none⟩, ⟨2, "beta", 1, none⟩]
  notes := [plainRow 1 1 "s1", plainRow 2 2 "s2"]
  embeddings := [(1, 400), (2, 0)]
  edges := []
  nextRowid := 3
  slugUnique := by decide
  rowidUnique := by decide
  syncUnique := by decide
  remoteUnique := by decide
  rowidsBelow := by decide
  vectorUnique := by decide
  vectorRows := by decide
  successorInProject := by decide

/-- Distance along one axis. -/
def axisDistance (query v : Int) : Nat := (query - v).natAbs

theorem agreeOn_oneProject_twoProjects : AgreeOn 1 oneProject twoProjects where
  notes := by decide
  vectors := by decide
  edges := by decide

/-- The other project's entry takes the one place of the search. -/
theorem not_isolated_of_nearer :
    AgreeOn 1 oneProject twoProjects
      ∧ ¬ Isolated axisDistance ⟨1500, 12032⟩ oneProject twoProjects 1 (.searchNotes 0 1) := by
  refine ⟨agreeOn_oneProject_twoProjects, fun h => ?_⟩
  have hsame := congrArg List.length h.1
  revert hsame
  decide +kernel

/-- With room for both entries the search is answered in full. -/
theorem isolated_of_room :
    AgreeOn 1 oneProject twoProjects
      ∧ Isolated axisDistance ⟨1500, 12032⟩ oneProject twoProjects 1 (.searchNotes 0 2) := by
  refine ⟨agreeOn_oneProject_twoProjects,
    (isolated_iff axisDistance ⟨1500, 12032⟩ agreeOn_oneProject_twoProjects _).mpr ?_⟩
  exact ⟨.inl (by decide +kernel), .inl (by decide +kernel)⟩

end Server
end Inkentry
