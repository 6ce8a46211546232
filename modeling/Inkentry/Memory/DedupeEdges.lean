/-
  Inkentry.Memory.DedupeEdges

  What becomes of the typed edges of rows that `memory dedupe` collapses.

  The references in `superseded_by` are turned to the survivors before a loser
  is deleted; the edges are not, and go with the rows they end in.  An edge of a
  loser is there afterwards only where the survivors had it already.
-/

import Inkentry.Memory.DedupeRun

namespace Inkentry
namespace Memory

/-- The row that a row is collapsed into: its group's survivor, or itself. -/
def survivorId (sha : String → String) (s : Store) (id : NoteId) : NoteId :=
  (loserToSurvivor (duplicateGroups sha s.allNotesForDedup) id).getD id

/-- An edge between the survivors of its ends. -/
def survivorEdge (sha : String → String) (s : Store) (e : MemoryEdge) : MemoryEdge where
  fromId := survivorId sha s e.fromId
  toId := survivorId sha s e.toId
  kind := e.kind

/-- A run that reports a summary leaves every edge between the survivors of its ends, unless
    these are one row. -/
def EdgesCarried (env : DedupeEnv) (s : Store) : Prop :=
  ∀ faults summary, (s.dedupeRun env faults false).1 = some summary →
    ∀ e ∈ s.edges, survivorId env.sha s e.fromId ≠ survivorId env.sha s e.toId →
      survivorEdge env.sha s e ∈ (s.dedupeRun env faults false).2.edges

/-- A row that a run would delete. -/
def Store.doomed (sha : String → String) (s : Store) (id : NoteId) : Prop :=
  IsLoser (duplicateGroups sha s.allNotesForDedup) id

/-- Every edge of a row that would be deleted stays inside one group, or is between the
    survivors too. -/
def EdgesDoubled (sha : String → String) (s : Store) : Prop :=
  ∀ e ∈ s.edges, s.doomed sha e.fromId ∨ s.doomed sha e.toId →
    survivorId sha s e.fromId = survivorId sha s e.toId ∨ survivorEdge sha s e ∈ s.edges

section

variable {env : DedupeEnv} {faults : Faults} {s : Store}
variable {summary : DedupeSummary}
variable {sha : String → String}

theorem survivorId_of_not_doomed {id : NoteId} (h : ¬ s.doomed sha id) :
    survivorId sha s id = id := by
  have hnone : loserToSurvivor (duplicateGroups sha s.allNotesForDedup) id = none := by
    rw [← Option.not_isSome_iff_eq_none, loserToSurvivor_isSome_iff]
    exact h
  rw [survivorId, hnone, Option.getD_none]

theorem not_doomed_survivorId (id : NoteId) :
    ¬ s.doomed sha (survivorId sha s id) := not_isLoser_getD allNotesForDedup_ids id

/-- A run that reports a summary leaves what the run without faults leaves. -/
theorem dedupeEntityIds_of_dedupeRun (h : (s.dedupeRun env faults false).1 = some summary) :
    s.dedupeEntityIds env.toStoreEnv false = some (summary, (s.dedupeRun env faults false).2) := by
  rcases dedupeRun_cases env faults s with hfail | ⟨-, s', hrun, hleft⟩
  · rw [hfail] at h
    cases h
  · rw [hrun] at h ⊢
    obtain rfl := Option.some.inj h
    rcases hleft with ⟨hnone, rfl⟩ | ⟨hsome, htransaction⟩
    · simp [Store.dedupeEntityIds, hnone]
    · have hrows := (dedupeTransaction_eq_some htransaction).2
      rw [Store.dedupedRows] at hrows
      simp [Store.dedupeEntityIds, hsome, hrows]

theorem mem_edges_dedupeRun (h : (s.dedupeRun env faults false).1 = some summary) (e : MemoryEdge) :
    e ∈ (s.dedupeRun env faults false).2.edges
      ↔ e ∈ s.edges ∧ ¬ s.doomed env.sha e.fromId ∧ ¬ s.doomed env.sha e.toId := by
  obtain ⟨s', hs', hdedupes⟩ := s.dedupeEntityIds_eq env.toStoreEnv
  have hrun := dedupeEntityIds_of_dedupeRun h
  rw [hs'] at hrun
  obtain rfl : s' = (s.dedupeRun env faults false).2 := congrArg Prod.snd (Option.some.inj hrun)
  exact hdedupes.edges_iff e

theorem survivorEdge_mem_iff (h : (s.dedupeRun env faults false).1 = some summary)
    (e : MemoryEdge) :
    survivorEdge env.sha s e ∈ (s.dedupeRun env faults false).2.edges
      ↔ survivorEdge env.sha s e ∈ s.edges := by
  rw [mem_edges_dedupeRun h]
  exact and_iff_left ⟨not_doomed_survivorId e.fromId, not_doomed_survivorId e.toId⟩

/-- Edges survive a merge exactly when it is refused, or no row that it deletes has an edge of
    its own. -/
theorem edgesCarried_iff (env : DedupeEnv) (s : Store) :
    EdgesCarried env s ↔ (PathsStay env s → EdgesDoubled env.sha s) := by
  constructor
  · intro h hstay e he _
    obtain ⟨summary, hsummary⟩ := dedupeRun_none hstay
    by_cases hself : survivorId env.sha s e.fromId = survivorId env.sha s e.toId
    · exact Or.inl hself
    · exact Or.inr ((survivorEdge_mem_iff hsummary e).mp (h .none summary hsummary e he hself))
  · intro h faults summary hsummary e he hself
    have hstay := (dedupeRun_eq_some hsummary).1
    rw [survivorEdge_mem_iff hsummary]
    by_cases hdoomed : s.doomed env.sha e.fromId ∨ s.doomed env.sha e.toId
    · exact (h hstay e he hdoomed).resolve_left hself
    · -- neither end is deleted: the edge is its own image
      rw [not_or] at hdoomed
      have hsame : survivorEdge env.sha s e = e := by
        rw [survivorEdge, survivorId_of_not_doomed hdoomed.1, survivorId_of_not_doomed hdoomed.2]
      rwa [hsame]

end

/-! ## An edge of a duplicate -/

/-- A row with other content. -/
def relatedRow : Note := { carriedRow "c" "ent-3" 3000 "active" with title := "Follow-up" }

/-- One content under two carried keys, and a row related to the later of them. -/
def relatedStore : Store where
  rows := [carriedRow "a" "ent-1" 1000 "active", carriedRow "b" "ent-2" 2000 "active", relatedRow]
  edges := [⟨⟨"c"⟩, ⟨"b"⟩, "relates_to"⟩]
  uuidUnique := by decide
  entityUnique := by decide
  remoteUnique := List.nodup_nil

theorem not_edgesCarried_of_related : ¬ EdgesCarried plainDedupeEnv relatedStore := by
  intro h
  have hsummary : (relatedStore.dedupeRun plainDedupeEnv .none false).1
      = some ⟨3, 1, 1, 0, 0, 0, 0⟩ := by
    decide +kernel
  have hcarried := h .none _ hsummary ⟨⟨"c"⟩, ⟨"b"⟩, "relates_to"⟩ (List.mem_singleton_self _)
    (by decide +kernel)
  have hnone : (relatedStore.dedupeRun plainDedupeEnv .none false).2.edges = [] := by
    decide +kernel
  rw [hnone] at hcarried
  cases hcarried

end Memory
end Inkentry
