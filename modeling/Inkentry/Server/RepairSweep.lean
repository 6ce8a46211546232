/-
  Inkentry.Server.RepairSweep

  What the repair pass promises whatever happens around it: it comes to an end,
  no row is attempted twice, and no vector is written for a row that is not
  active or has one when it is written.

  `weight` is the number of turns a pass may still take: a page of `k` rows moves
  the cursor by at least `k`, which pays for the turns the page takes.
-/

import Inkentry.Server.Repair

namespace Inkentry
namespace Server

variable {Vec : Type*} {db : RepairDb Vec}

/-- No row is past `top`. -/
def RepairDb.Within (top : ℕ) (db : RepairDb Vec) : Prop := ∀ n ∈ db.notes, n.rowid ≤ top

/-! ## A page -/

theorem mem_notesMissingEmbeddings {afterRowid limit : ℕ} {note : VectorlessNote}
    (h : note ∈ db.notesMissingEmbeddings afterRowid limit) :
    afterRowid < note.rowid ∧ db.Missing note.rowid := by
  obtain ⟨n, hn, rfl⟩ := List.mem_map.mp h
  have hrow : n ∈ OrderLimit.sortBy NoteRow.rowid (db.notes.filter fun n =>
      n.status = "active" ∧ afterRowid < n.rowid ∧ n.rowid ∉ db.embeddings.map Prod.fst) := by
    rw [sqlLimit] at hn
    split at hn
    · exact List.mem_of_mem_take hn
    · exact hn
  rw [OrderLimit.mem_sortBy, List.mem_filter, decide_eq_true_iff] at hrow
  obtain ⟨hmem, hactive, hafter, hvector⟩ := hrow
  exact ⟨hafter, ⟨n, hmem, rfl, hactive⟩, hvector⟩

theorem notesMissingEmbeddings_pairwise (db : RepairDb Vec) (afterRowid limit : ℕ) :
    ((db.notesMissingEmbeddings afterRowid limit).map VectorlessNote.rowid).Pairwise (· < ·) := by
  have hsorted : (OrderLimit.sortBy NoteRow.rowid (db.notes.filter fun n =>
      n.status = "active" ∧ afterRowid < n.rowid ∧ n.rowid ∉ db.embeddings.map Prod.fst)).Pairwise
      fun n m => n.rowid < m.rowid := by
    refine List.Pairwise.imp₂ (R := fun n m : NoteRow => n.rowid ≤ m.rowid)
      (S := fun n m => n.rowid ≠ m.rowid) (fun _ _ hle hne => Nat.lt_of_le_of_ne hle hne)
      (OrderLimit.sortBy_pairwise NoteRow.rowid _) ?_
    have hnodup := (List.pairwise_map.mp db.rowidUnique).filter fun n =>
      n.status = "active" ∧ afterRowid < n.rowid ∧ n.rowid ∉ db.embeddings.map Prod.fst
    exact (OrderLimit.sortBy_perm NoteRow.rowid _).symm.pairwise hnodup fun hne => hne.symm
  rw [ServerDb.notesMissingEmbeddings]
  refine List.pairwise_map.mpr (List.pairwise_map.mpr ?_)
  rw [sqlLimit]
  split
  · exact hsorted.sublist (List.take_sublist _ _)
  · exact hsorted

/-- Numbers in order above a floor take the last of them as far above it. -/
theorem length_add_le_getLast {l : List ℕ} {floor last : ℕ} (hsorted : l.Pairwise (· < ·))
    (hfloor : ∀ r ∈ l, floor < r) (hlast : l.getLast? = some last) :
    floor + l.length ≤ last ∧ ∀ r ∈ l, r ≤ last := by
  induction l generalizing floor with
  | nil => cases hlast
  | cons r rest ih =>
    obtain ⟨hr, hrest⟩ := List.pairwise_cons.mp hsorted
    have hfirst := hfloor r List.mem_cons_self
    cases rest with
    | nil =>
      obtain rfl : r = last := by simpa using hlast
      exact ⟨Nat.succ_le_of_lt hfirst, by simp⟩
    | cons r' rest =>
      rw [List.getLast?_cons_cons] at hlast
      obtain ⟨hlen, hle⟩ := ih hrest hr hlast
      refine ⟨?_, fun r'' hmem => ?_⟩
      · rw [List.length_cons]
        omega
      · rcases List.mem_cons.mp hmem with rfl | hmem
        · exact (hr r' List.mem_cons_self).le.trans (hle r' List.mem_cons_self)
        · exact hle r'' hmem

/-! ## Writes -/

theorem insertEmbeddingIfMissing_of_missing {rowid : ℕ} (v : Vec) (h : db.Missing rowid) :
    ∃ db', db.insertEmbeddingIfMissing rowid v = (db', true)
      ∧ db'.embeddings = db.embeddings ++ [(rowid, v)] ∧ db'.notes = db.notes := by
  rw [RepairDb.insertEmbeddingIfMissing, dif_pos h]
  exact ⟨_, rfl, rfl, rfl⟩

/-- What a page's writes add to the vectors: rows that are missing theirs, each once. -/
theorem storeVectors_spec (writeFails : ℕ → Bool) (rows : List (VectorlessNote × Option Vec)) :
    ∀ (db : RepairDb Vec) (stats : RepairStats), ∃ added,
      (storeVectors writeFails db stats rows).1.embeddings = db.embeddings ++ added
      ∧ (storeVectors writeFails db stats rows).1.notes = db.notes
      ∧ ∀ e ∈ added, db.Missing e.1 ∧ ∃ note, (note, some e.2) ∈ rows ∧ note.rowid = e.1 := by
  -- over the page; a row that got its vector meanwhile is left alone
  induction rows with
  | nil => exact fun db stats => ⟨[], by simp [storeVectors], rfl, by simp⟩
  | cons row rows ih =>
    intro db stats
    obtain ⟨note, vector⟩ := row
    have hwiden : ∀ {e : ℕ × Vec}, (∃ note', (note', some e.2) ∈ rows ∧ note'.rowid = e.1) →
        ∃ note', (note', some e.2) ∈ (note, vector) :: rows ∧ note'.rowid = e.1 :=
      fun ⟨note', hmem, hid⟩ => ⟨note', List.mem_cons_of_mem _ hmem, hid⟩
    cases vector with
    | none =>
      obtain ⟨added, hvectors, hnotes, hadded⟩ := ih db { stats with failed := stats.failed + 1 }
      exact ⟨added, hvectors, hnotes, fun e he => (hadded e he).imp_right hwiden⟩
    | some v =>
      rw [storeVectors]
      split
      · exact ⟨[], by simp, rfl, by simp⟩
      · by_cases hmissing : db.Missing note.rowid
        · obtain ⟨db', hinsert, hdbVectors, hdbNotes⟩ := insertEmbeddingIfMissing_of_missing v hmissing
          rw [hinsert]
          obtain ⟨added, hvectors, hnotes, hadded⟩ := ih db' { stats with repaired := stats.repaired + 1 }
          refine ⟨(note.rowid, v) :: added, ?_, hnotes.trans hdbNotes, fun e he => ?_⟩
          · refine hvectors.trans ?_
            rw [hdbVectors, List.append_assoc, List.singleton_append]
          · rcases List.mem_cons.mp he with rfl | he
            · exact ⟨hmissing, note, List.mem_cons_self, rfl⟩
            · obtain ⟨⟨hactive, hvector⟩, hrow⟩ := hadded e he
              rw [hdbNotes] at hactive
              rw [hdbVectors, List.map_append, List.mem_append, not_or] at hvector
              exact ⟨⟨hactive, hvector.1⟩, hwiden hrow⟩
        · have hinsert : db.insertEmbeddingIfMissing note.rowid v = (db, false) := by
            rw [RepairDb.insertEmbeddingIfMissing, dif_neg hmissing]
          rw [hinsert]
          obtain ⟨added, hvectors, hnotes, hadded⟩ := ih db stats
          exact ⟨added, hvectors, hnotes, fun e he => (hadded e he).imp_right hwiden⟩

/-- A turn writes nothing but vectors of the page in hand, for rows that are missing theirs. -/
theorem Sweep.turn_writes (pageSize : ℕ) (s : Sweep Vec) (t : Turn Vec) : ∃ added,
    (s.turn pageSize t).db.embeddings = s.db.embeddings ++ added
    ∧ (s.turn pageSize t).db.notes = s.db.notes
    ∧ ∀ e ∈ added, s.db.Missing e.1 ∧ ∃ page vectors note, s.phase = .writing page vectors
      ∧ (note, some e.2) ∈ page.zip vectors ∧ note.rowid = e.1 := by
  -- only the write at the end of a page touches the store
  have hidle : ∀ s' : Sweep Vec, s'.db = s.db → ∃ added, s'.db.embeddings = s.db.embeddings ++ added
      ∧ s'.db.notes = s.db.notes
      ∧ ∀ e ∈ added, s.db.Missing e.1 ∧ ∃ page vectors note, s.phase = .writing page vectors
        ∧ (note, some e.2) ∈ page.zip vectors ∧ note.rowid = e.1 :=
    fun s' h => ⟨[], by rw [h, List.append_nil], by rw [h], by simp⟩
  cases hphase : s.phase with
  | reading =>
    simp only [turn, hphase]
    split
    · exact hphase ▸ hidle _ rfl
    · split
      · exact hphase ▸ hidle _ rfl
      · exact hphase ▸ hidle _ rfl
  | embedding page =>
    simp only [turn, hphase]
    split <;> exact hphase ▸ hidle _ rfl
  | retrying page out =>
    simp only [turn, hphase]
    split
    · exact hphase ▸ hidle _ rfl
    · split <;> exact hphase ▸ hidle _ rfl
  | writing page vectors =>
    simp only [turn, hphase]
    obtain ⟨added, hvectors, hnotes, hadded⟩ :=
      storeVectors_spec t.writeFails (page.zip vectors) s.db s.stats
    refine ⟨added, hvectors, hnotes, fun e he => ?_⟩
    obtain ⟨hmissing, note, hmem, hid⟩ := hadded e he
    exact ⟨hmissing, page, vectors, note, rfl, hmem, hid⟩
  | finished ok =>
    simp only [turn, hphase]
    exact ⟨[], by simp, trivial, by simp⟩

/-! ## What a turn does -/

namespace Sweep

variable {s : Sweep Vec} {t : Turn Vec} {pageSize : ℕ}

/-- A read ends the pass, or the rows of its page lie between the old cursor and the new. -/
theorem turn_reading (pageSize : ℕ) (t : Turn Vec) (hphase : s.phase = .reading) :
    (∃ ok, (s.turn pageSize t).phase = .finished ok ∧ (s.turn pageSize t).cursor = s.cursor)
      ∨ ∃ page, (s.turn pageSize t).phase = .embedding page
        ∧ (page.map VectorlessNote.rowid).Pairwise (· < ·)
        ∧ (∀ note ∈ page, s.cursor < note.rowid ∧ s.db.Missing note.rowid
          ∧ note.rowid ≤ (s.turn pageSize t).cursor)
        ∧ page ≠ [] ∧ s.cursor + page.length ≤ (s.turn pageSize t).cursor
        ∧ s.db.Missing (s.turn pageSize t).cursor := by
  rw [turn, hphase]
  simp only
  split
  · exact .inl ⟨false, rfl, rfl⟩
  · split
    · exact .inl ⟨true, rfl, rfl⟩
    · next last hlast =>
      have hmem := List.mem_of_getLast? hlast
      have hsorted := notesMissingEmbeddings_pairwise s.db s.cursor (max pageSize 1)
      have hlast' : ((s.db.notesMissingEmbeddings s.cursor (max pageSize 1)).map
          VectorlessNote.rowid).getLast? = some last.rowid := by
        rw [List.getLast?_map, hlast, Option.map_some]
      obtain ⟨hlen, hle⟩ := length_add_le_getLast hsorted
        (List.forall_mem_map.mpr fun note hnote => (mem_notesMissingEmbeddings hnote).1) hlast'
      rw [List.length_map] at hlen
      refine .inr ⟨_, rfl, hsorted, fun note hnote => ?_, List.ne_nil_of_mem hmem, hlen,
        (mem_notesMissingEmbeddings hmem).2⟩
      obtain ⟨hafter, hmissing⟩ := mem_notesMissingEmbeddings hnote
      exact ⟨hafter, hmissing, hle _ (List.mem_map_of_mem hnote)⟩

/-! ## Turns run out -/

variable {top : ℕ}

/-- How many turns a pass may still take while no row is past `top`. -/
def weight (top : ℕ) (s : Sweep Vec) : ℕ :=
  let rest := 5 * (top - s.cursor)
  match s.phase with
  | .reading => rest + 1
  | .embedding page => rest + page.length + 4
  | .retrying page out => rest + (page.length - out.length) + 3
  | .writing _ _ => rest + 2
  | .finished _ => 0

theorem weight_eq_zero_iff : s.weight top = 0 ↔ ∃ ok, s.phase = .finished ok := by
  rw [weight]
  split <;> simp_all

theorem weight_turn_lt (pageSize : ℕ) (t : Turn Vec) (htop : s.db.Within top)
    (h : s.weight top ≠ 0) : (s.turn pageSize t).weight top < s.weight top := by
  -- a page costs more than all its turns, and the cursor leaves it behind
  cases hphase : s.phase with
  | reading =>
    rcases turn_reading pageSize t hphase with
      ⟨ok, hdone, -⟩ | ⟨page, hpage, -, -, hne, hlen, ⟨⟨n, hn, hid, -⟩, -⟩⟩
    · rw [weight_eq_zero_iff.mpr ⟨ok, hdone⟩]
      exact Nat.pos_of_ne_zero h
    · have hpos := List.length_pos_iff.mpr hne
      have hmax := htop n hn
      rw [hid] at hmax
      simp only [weight, hphase, hpage]
      omega
  | embedding page =>
    simp only [turn, hphase]
    split
    · exact Nat.pos_of_ne_zero h
    · exact Nat.pos_of_ne_zero h
    · simp only [weight, hphase, List.length_nil]
      omega
    · simp only [weight, embedded, hphase]
      omega
  | retrying page out =>
    simp only [turn, hphase]
    split
    · simp only [weight, embedded, hphase]
      omega
    · next note hnote =>
      have hlt := (List.getElem?_eq_some_iff.mp hnote).1
      split
      · exact Nat.pos_of_ne_zero h
      · exact Nat.pos_of_ne_zero h
      · simp only [weight, hphase, List.length_append, List.length_singleton]
        omega
      · simp only [weight, hphase, List.length_append, List.length_singleton]
        omega
  | writing page vectors =>
    simp only [turn, hphase]
    split
    · simp only [weight, hphase]
      omega
    · simp only [weight, hphase]
      omega
  | finished ok => exact absurd (weight_eq_zero_iff.mpr ⟨ok, hphase⟩) h

def isTurn : RepairLabel Vec → Bool
  | .turn _ => true
  | .others _ => false

theorem weight_run_le (pageSize : ℕ) (labels : List (RepairLabel Vec)) :
    ∀ {s : Sweep Vec}, s.db.Within top → (∀ db, .others db ∈ labels → db.Within top) →
      (Runs.run (step pageSize) s labels).weight top ≤ s.weight top - labels.countP isTurn := by
  induction labels with
  | nil => exact fun _ _ => Nat.le_refl _
  | cons label labels ih =>
    intro s hs hothers
    have hrest : ∀ db, .others db ∈ labels → db.Within top := fun db hmem =>
      hothers db (List.mem_cons_of_mem _ hmem)
    rw [Runs.run_cons, List.countP_cons]
    cases label with
    -- what others write is bounded by hypothesis, and the weight does not look at it
    | others db =>
      refine (ih (s := { s with db := db }) (hothers db List.mem_cons_self) hrest).trans ?_
      show s.weight top - _ ≤ _
      simp [isTurn]
    | turn t =>
      have hdb : (s.turn pageSize t).db.Within top := by
        obtain ⟨added, -, hnotes, -⟩ := s.turn_writes pageSize t
        rwa [RepairDb.Within, hnotes]
      have hle : (s.turn pageSize t).weight top ≤ s.weight top - 1 := by
        by_cases h : s.weight top = 0
        · obtain ⟨ok, hphase⟩ := weight_eq_zero_iff.mp h
          rw [turn, hphase]
          simp only
          omega
        · have hlt := weight_turn_lt pageSize t hs h
          omega
      refine (ih (s := s.turn pageSize t) hdb hrest).trans ?_
      simp only [isTurn, if_true]
      omega

/-- A pass that meets no row past `top` is over after so many turns. -/
theorem finished_of_turns (pageSize : ℕ) {labels : List (RepairLabel Vec)} (hdb : db.Within top)
    (hothers : ∀ db, .others db ∈ labels → db.Within top)
    (hturns : 5 * top + 1 ≤ labels.countP isTurn) :
    ∃ ok, (Runs.run (step pageSize) (start db) labels).phase = .finished ok := by
  have hle := weight_run_le pageSize labels (s := start db) hdb hothers
  have hstart : (start db).weight top = 5 * top + 1 := rfl
  have hzero : (Runs.run (step pageSize) (start db) labels).weight top = 0 := by omega
  exact weight_eq_zero_iff.mp hzero

/-! ## Attempts -/

/-- The rows whose texts go to the embedder. -/
def attempted (s : Sweep Vec) : RepairLabel Vec → List ℕ
  | .others _ => []
  | .turn _ =>
    match s.phase with
    | .embedding page => page.map VectorlessNote.rowid
    | _ => []

/-- The rows attempted in a run, in order. -/
def attempts (pageSize : ℕ) : Sweep Vec → List (RepairLabel Vec) → List ℕ
  | _, [] => []
  | s, label :: labels => s.attempted label ++ attempts pageSize (s.step pageSize label) labels

/-- The page in hand is in order and behind the cursor. -/
def Ordered (s : Sweep Vec) : Prop :=
  ∀ page, s.phase = .embedding page →
    (page.map VectorlessNote.rowid).Pairwise (· < ·) ∧ ∀ note ∈ page, note.rowid ≤ s.cursor

theorem turn_of_not_reading (pageSize : ℕ) (t : Turn Vec) (h : s.phase ≠ .reading) :
    (s.turn pageSize t).cursor = s.cursor ∧ ∀ page, (s.turn pageSize t).phase ≠ .embedding page := by
  cases hphase : s.phase with
  | reading => exact absurd hphase h
  | embedding page =>
    simp only [turn, hphase]
    split <;> simp [stop, embedded]
  | retrying page out =>
    simp only [turn, hphase]
    split
    · simp [embedded]
    · split <;> simp [stop]
  | writing page vectors =>
    simp only [turn, hphase]
    split <;> simp
  | finished ok => simp [turn, hphase]

theorem attempted_turn (s : Sweep Vec) (t : Turn Vec) :
    (∃ page, s.phase = .embedding page
      ∧ s.attempted (.turn t) = page.map VectorlessNote.rowid) ∨ s.attempted (.turn t) = [] := by
  cases hphase : s.phase with
  | embedding page => exact .inl ⟨page, rfl, by simp [attempted, hphase]⟩
  | reading => exact .inr (by simp [attempted, hphase])
  | retrying page out => exact .inr (by simp [attempted, hphase])
  | writing page vectors => exact .inr (by simp [attempted, hphase])
  | finished ok => exact .inr (by simp [attempted, hphase])

/-- Rows are attempted in rowid order, the page in hand first and then rows past the cursor. -/
theorem attempts_ordered (pageSize : ℕ) (labels : List (RepairLabel Vec)) : ∀ {s : Sweep Vec},
    s.Ordered → (attempts pageSize s labels).Pairwise (· < ·)
      ∧ ∀ r ∈ attempts pageSize s labels,
        s.cursor < r ∨ ∃ page, s.phase = .embedding page ∧ r ∈ page.map VectorlessNote.rowid := by
  induction labels with
  | nil => exact fun _ => ⟨List.Pairwise.nil, fun r hr => absurd hr List.not_mem_nil⟩
  | cons label labels ih =>
    intro s hordered
    cases label with
    | others db => exact ih (s := { s with db := db }) hordered
    | turn t =>
      show (s.attempted (.turn t) ++ attempts pageSize (s.turn pageSize t) labels).Pairwise (· < ·)
        ∧ ∀ r ∈ s.attempted (.turn t) ++ attempts pageSize (s.turn pageSize t) labels, _
      by_cases hreading : s.phase = .reading
      · have hnone : s.attempted (.turn t) = [] := by simp [attempted, hreading]
        rw [hnone, List.nil_append]
        -- nothing left to read, or a page past the cursor, which then stands at its end
        rcases turn_reading pageSize t hreading with
          ⟨ok, hdone, hcursor⟩ | ⟨page, hpage, hsorted, hbounds, hne, hlen, -⟩
        · obtain ⟨hrest, hpast⟩ := ih (s := s.turn pageSize t) fun page h => by
            rw [hdone] at h
            cases h
          refine ⟨hrest, fun r hr => .inl ?_⟩
          rcases hpast r hr with hlt | ⟨page, h, -⟩
          · rwa [hcursor] at hlt
          · rw [hdone] at h
            cases h
        · obtain ⟨hrest, hpast⟩ := ih (s := s.turn pageSize t) fun page' h => by
            obtain rfl : page = page' := by simpa [hpage] using h
            exact ⟨hsorted, fun note hnote => (hbounds note hnote).2.2⟩
          refine ⟨hrest, fun r hr => .inl ?_⟩
          rcases hpast r hr with hlt | ⟨page', h, hr⟩
          · omega
          · obtain rfl : page = page' := by simpa [hpage] using h
            obtain ⟨note, hnote, rfl⟩ := List.mem_map.mp hr
            exact (hbounds note hnote).1
      · obtain ⟨hcursor, hphase⟩ := turn_of_not_reading pageSize t hreading
        obtain ⟨hrest, hpast⟩ := ih (s := s.turn pageSize t) fun page h => absurd h (hphase page)
        have hlater : ∀ r ∈ attempts pageSize (s.turn pageSize t) labels, s.cursor < r := by
          intro r hr
          rcases hpast r hr with hlt | ⟨page, h, -⟩
          · rwa [hcursor] at hlt
          · exact absurd h (hphase page)
        -- a page is tried once, as a whole, and all later pages lie past it
        rcases attempted_turn s t with ⟨page, hpage, heq⟩ | heq
        · obtain ⟨hsorted, hbehind⟩ := hordered page hpage
          rw [heq]
          refine ⟨List.pairwise_append.mpr ⟨hsorted, hrest, fun a ha b hb => ?_⟩, fun r hr => ?_⟩
          · obtain ⟨note, hnote, rfl⟩ := List.mem_map.mp ha
            exact Nat.lt_of_le_of_lt (hbehind note hnote) (hlater b hb)
          · rcases List.mem_append.mp hr with hr | hr
            · exact .inr ⟨page, hpage, hr⟩
            · exact .inl (hlater r hr)
        · rw [heq, List.nil_append]
          exact ⟨hrest, fun r hr => .inl (hlater r hr)⟩

end Sweep

/-- What one pass promises, whatever holds the lock around it. -/
structure SweepLaw (Vec : Type*) (pageSize : ℕ) : Prop where
  terminates_within : ∀ (top : ℕ) (db : RepairDb Vec) (labels : List (RepairLabel Vec)),
    db.Within top → (∀ db', .others db' ∈ labels → db'.Within top) →
    5 * top + 1 ≤ labels.countP Sweep.isTurn →
    ∃ ok, (Runs.run (Sweep.step pageSize) (.start db) labels).phase = .finished ok
  terminates : ∀ (db : RepairDb Vec) (labels : List (RepairLabel Vec)),
    5 * 9223372036854775807 + 1 ≤ labels.countP Sweep.isTurn →
    ∃ ok, (Runs.run (Sweep.step pageSize) (.start db) labels).phase = .finished ok
  attempted_once : ∀ (db : RepairDb Vec) (labels : List (RepairLabel Vec)),
    (Sweep.attempts pageSize (.start db) labels).Pairwise (· < ·)
  attempts_missing : ∀ (s : Sweep Vec) (t : Turn Vec) (page : List VectorlessNote),
    s.phase = .reading → (s.turn pageSize t).phase = .embedding page →
    ∀ note ∈ page, s.db.Missing note.rowid
  write_guarded : ∀ (s : Sweep Vec) (t : Turn Vec), ∃ added,
    (s.turn pageSize t).db.embeddings = s.db.embeddings ++ added
    ∧ (s.turn pageSize t).db.notes = s.db.notes
    ∧ (added.map Prod.fst).Nodup
    ∧ ∀ e ∈ added, s.db.Missing e.1 ∧ ∃ page vectors note, s.phase = .writing page vectors
      ∧ (note, some e.2) ∈ page.zip vectors ∧ note.rowid = e.1

theorem sweep_law (Vec : Type*) (pageSize : ℕ) : SweepLaw Vec pageSize where
  terminates_within := fun top db labels hdb hothers hturns =>
    Sweep.finished_of_turns pageSize hdb hothers hturns
  terminates := fun db labels hturns =>
    Sweep.finished_of_turns pageSize db.rowidMax (fun db' _ => db'.rowidMax) hturns
  attempted_once := fun db labels => (Sweep.attempts_ordered pageSize labels fun page h => by cases h).1
  attempts_missing := by
    intro s t page hreading hpage note hnote
    rcases Sweep.turn_reading pageSize t hreading with ⟨ok, hdone, -⟩ | ⟨page', hpage', -, hbounds, -⟩
    · rw [hdone] at hpage
      cases hpage
    · obtain rfl : page' = page := by simpa [hpage'] using hpage
      exact (hbounds note hnote).2.1
  write_guarded := by
    intro s t
    obtain ⟨added, hvectors, hnotes, hadded⟩ := s.turn_writes pageSize t
    refine ⟨added, hvectors, hnotes, ?_, hadded⟩
    have hunique := (s.turn pageSize t).db.vectorUnique
    rw [hvectors, List.map_append] at hunique
    exact (List.nodup_append.mp hunique).2.1

end Server
end Inkentry
