/-
  Inkentry.Anchors.Reconcile

  What passes do over the life of a repository.

  With a sound cache a pass is what it would be without one: `corePass` asks
  the commits themselves, and `reconcileAnchors_of_sound` says that the pass is
  `corePass`.  What a pass no git call fails of adds and repoints is then read
  off `corePass` line by line (`clean_effect`).

  The old anchor of a commit that was rebased away stays on the notes with no
  mark that it has been replaced, so the next pass finds it again: passing twice
  is passing once exactly where nothing was to be replaced.  The cache stays
  sound as long as no computation of a patch-id fails: a failure is cached as a
  commit that has none.
-/

import Inkentry.GitNotes.FoldOrder
import Inkentry.Lib.Pass
import Inkentry.Lib.Runs
import Inkentry.Anchors.Pass

namespace Inkentry
namespace Anchors

open GitNotes OrderLimit Runs

/-! ## What a pass is to do -/

/-- No git call of the pass fails. -/
def Pass.Clean (p : Pass) : Prop := ∀ call, p.fails call = false

/-- Every patch-id the pass has to compute, it computes. -/
def Pass.Answered (env : Env) (p : Pass) (m : Memo.Table String (Option String)) : Prop :=
  Memo.Answers env.patchId none (fun commit => p.fails (.patchId commit)) m

theorem Pass.Clean.answered {env : Env} {p : Pass} (h : p.Clean)
    (m : Memo.Table String (Option String)) : p.Answered env m :=
  Memo.answers_of_no_failure (fun commit => h (.patchId commit)) m

/-- The reachable commit that replaces the commit of an orphaned anchor and the
    row of the anchored entry. -/
def replacement? (env : Env) (reachable : List String) (store : Memory.Store)
    (line : String × NoteRecord) : Option (String × Note) :=
  if line.1 ∈ reachable ∨ line.2.op ≠ some "anchor" then none
  else
    line.2.patchId.bind fun patchId =>
      (Memo.unique env.patchId (some patchId) reachable).bind fun target =>
        (store.rowForEntity? (line.2.resolveEntityId env.sha)).map fun n =>
          (target, Memory.rowToNote n)

/-- An anchor: the commit, its patch-id, and the entry by its row and by its content. -/
@[ext] structure Anchoring where
  target : String
  patchId : Option String
  entityId : String
  contentId : String
  deriving DecidableEq

def anchoring (env : Env) (r : String × Note) : Anchoring :=
  ⟨r.1, env.patchId r.1, r.2.entityId, noteEntityId env.sha r.2⟩

/-- The anchors a state lacks. -/
def State.anchorings (env : Env) (st : State) : List Anchoring :=
  (allNotedRecords st.log).filterMap fun line =>
    (replacement? env st.git.reachable st.db.store line).map (anchoring env)

/-- The reachable commit that replaces the head of a pending row. -/
def newHead? (env : Env) (reachable : List String) (r : PendingAnchor) : Option String :=
  if r.headAtWrite ∈ reachable then none
  else
    (env.patchId r.headAtWrite).bind fun patchId =>
      Memo.unique env.patchId (some patchId) reachable

/-- A pending row, repointed if its head was replaced. -/
def repointed (env : Env) (reachable : List String) (r : PendingAnchor) : PendingAnchor :=
  match newHead? env reachable r with
  | none => r
  | some head => { r with headAtWrite := head }

/-- The pending rows after the anchors a state lacks have been added. -/
def State.expectedPending (env : Env) (st : State) : List PendingAnchor :=
  (st.db.pending.filter fun r => r.entityId ∉ (st.anchorings env).map Anchoring.entityId).map
    (repointed env st.git.reachable)

/-- What an anchor record says. -/
def saysAnchor (env : Env) (line : String × NoteRecord) (a : Anchoring) : Prop :=
  line.1 = a.target ∧ line.2.op = some "anchor" ∧ line.2.patchId = a.patchId
    ∧ line.2.resolveEntityId env.sha = a.contentId

/-- A pass no git call fails of adds the anchors the state lacks, and no others,
    repoints the pending rows, and does what it would do with an empty cache. -/
structure HealedBy (env : Env) (st : State) (p : Pass) : Prop where
  anchors : ∃ added, (st.reconciled env p).log = st.log ++ added
    ∧ List.Forall₂ (saysAnchor env) added (st.anchorings env)
  pending : (st.reconciled env p).db.pending = st.expectedPending env
  log_asFresh : (st.reconciled env p).log
    = ({ st with patchIds := Memo.Table.empty }.reconciled env p).log
  db_asFresh : (st.reconciled env p).db
    = ({ st with patchIds := Memo.Table.empty }.reconciled env p).db

def Heals (env : Env) (st : State) : Prop := ∀ p : Pass, p.Clean → HealedBy env st p

/-- A second pass adds no record and changes no pending row. -/
def Idempotent (env : Env) (st : State) : Prop :=
  ∀ p p' : Pass, p.Clean → p'.Clean →
    ((st.reconciled env p).reconciled env p').log = (st.reconciled env p).log
    ∧ ((st.reconciled env p).reconciled env p').db.pending = (st.reconciled env p).db.pending

/-- No anchor on an unreachable commit has its one replacement and its row. -/
def Settled (env : Env) (st : State) : Prop :=
  ∀ line ∈ st.log, line.1 ∉ st.git.reachable → line.2.op = some "anchor" →
    ∀ patchId ∈ line.2.patchId, Memo.unique env.patchId (some patchId) st.git.reachable ≠ none →
      st.db.store.rowForEntity? (line.2.resolveEntityId env.sha) = none

/-! ## A pass without the cache -/

section Core

variable (env : Env) (git : Git) (p : Pass)

def anchorOrphan (reachable : List String) (c : Core) (line : String × NoteRecord) : Core :=
  match replacement? env reachable c.db.store line with
  | none => c
  | some r => anchorNoteNow env git p c r.2 r.1

def repointRow (reachable : List String) (c : Core) (row : PendingAnchor) : Core :=
  match newHead? env reachable row with
  | none => c
  | some head => { c with db := c.db.reassignPendingAnchorHead row.entityId head }

def corePass (c : Core) : Core :=
  let reachable := if p.fails .reachable then [] else git.reachable
  if p.fails .readNotes then c
  else
    let all := if p.fails .listNotes then [] else allNotedRecords c.log
    let anchored := all.foldl (anchorOrphan env git p reachable) c
    anchored.db.pending.foldl (repointRow env reachable) anchored

/-- The cache can be asked in this pass. -/
def CacheReady (m : Memo.Table String (Option String)) : Prop :=
  Memo.Ready env.patchId none (fun commit => p.fails (.patchId commit)) m

variable {env git p}

theorem findUniqueMatch_of_ready {m : Memo.Table String (Option String)} (h : CacheReady env p m)
    (patchId : String) (reachable : List String) :
    (findUniqueMatch env p m patchId reachable).1
        = Memo.unique env.patchId (some patchId) reachable
      ∧ CacheReady env p (findUniqueMatch env p m patchId reachable).2 := by
  rw [← Memo.unique_perm (p.visit_perm reachable)]
  exact Memo.findUnique_of_sound h

theorem reconcileOrphanedAnchor_of_ready {w : Work} (h : CacheReady env p w.2)
    (reachable : List String) (line : String × NoteRecord) :
    (reconcileOrphanedAnchor env git p reachable w line).1
        = anchorOrphan env git p reachable w.1 line
      ∧ CacheReady env p (reconcileOrphanedAnchor env git p reachable w line).2 := by
  rw [reconcileOrphanedAnchor, anchorOrphan, replacement?]
  by_cases hskip : line.1 ∈ reachable ∨ line.2.op ≠ some "anchor"
  · rw [if_pos hskip, if_pos hskip]
    exact ⟨rfl, h⟩
  · rw [if_neg hskip, if_neg hskip]
    cases hpatch : line.2.patchId with
    | none => exact ⟨rfl, h⟩
    | some patchId =>
      obtain ⟨hfound, hready⟩ := findUniqueMatch_of_ready h patchId reachable
      simp only [hfound, Option.bind_some]
      cases Memo.unique env.patchId (some patchId) reachable with
      | none => exact ⟨rfl, hready⟩
      | some target =>
        simp only [Option.bind_some]
        cases w.1.db.store.rowForEntity? (line.2.resolveEntityId env.sha) with
        | none => exact ⟨rfl, hready⟩
        | some n => exact ⟨rfl, hready⟩

theorem reconcilePendingRow_of_ready {w : Work} (h : CacheReady env p w.2)
    (reachable : List String) (row : PendingAnchor) :
    (reconcilePendingRow env p reachable w row).1 = repointRow env reachable w.1 row
      ∧ CacheReady env p (reconcilePendingRow env p reachable w row).2 := by
  rw [reconcilePendingRow, repointRow, newHead?]
  by_cases hskip : row.headAtWrite ∈ reachable
  · rw [if_pos hskip, if_pos hskip]
    exact ⟨rfl, h⟩
  · rw [if_neg hskip, if_neg hskip]
    obtain ⟨hknown, hready⟩ := Memo.ask_of_sound h row.headAtWrite
    simp only [patchIdOf, hknown]
    cases env.patchId row.headAtWrite with
    | none => exact ⟨rfl, hready⟩
    | some patchId =>
      obtain ⟨hfound, hready'⟩ := findUniqueMatch_of_ready hready patchId reachable
      simp only [hfound, Option.bind_some]
      cases Memo.unique env.patchId (some patchId) reachable with
      | none => exact ⟨rfl, hready'⟩
      | some target => exact ⟨rfl, hready'⟩

/-- A loop whose steps agree with steps on the core, as long as the cache can be asked. -/
theorem foldl_of_ready {α : Type} {f : Work → α → Work} {g : Core → α → Core}
    (h : ∀ w a, CacheReady env p w.2 → (f w a).1 = g w.1 a ∧ CacheReady env p (f w a).2)
    (l : List α) {w : Work} (hw : CacheReady env p w.2) :
    (l.foldl f w).1 = l.foldl g w.1 ∧ CacheReady env p (l.foldl f w).2 := by
  induction l generalizing w with
  | nil => exact ⟨rfl, hw⟩
  | cons a l ih =>
    obtain ⟨hstep, hready⟩ := h w a hw
    rw [List.foldl_cons, List.foldl_cons, ← hstep]
    exact ih hready

theorem reconcileAnchors_of_ready {w : Work} (h : CacheReady env p w.2) :
    (reconcileAnchors env git p w).1 = corePass env git p w.1
      ∧ CacheReady env p (reconcileAnchors env git p w).2 := by
  rw [reconcileAnchors, corePass]
  by_cases hread : p.fails .readNotes = true
  · rw [if_pos hread, if_pos hread]
    exact ⟨rfl, h⟩
  · rw [if_neg hread, if_neg hread]
    obtain ⟨horphans, hready⟩ := foldl_of_ready
      (fun w line hw => @reconcileOrphanedAnchor_of_ready env git p w hw
        (if p.fails .reachable then [] else git.reachable) line)
      (if p.fails .listNotes then [] else allNotedRecords w.1.log) h
    dsimp only
    rw [← horphans]
    exact foldl_of_ready (fun w row hw => @reconcilePendingRow_of_ready env p w hw
      (if p.fails .reachable then [] else git.reachable) row) _ hready

end Core

/-! ## What a clean pass does -/

section Clean

variable {env : Env} {git : Git} {p : Pass}
variable {reachable : List String}
variable {l : List PendingAnchor}

/-- What anchors show of the rows. -/
def rowKeys (env : Env) (s : Memory.Store) (entity : String) : Option (String × String) :=
  (s.rowForEntity? entity).map fun n => (n.entityId, noteEntityId env.sha n)

theorem rowKeys_setSourceRef (db : Db) (id : NoteId) (sourceRef : String) :
    rowKeys env (db.setSourceRef id sourceRef).store = rowKeys env db.store := by
  funext entity
  rw [rowKeys, Db.setSourceRef, Memory.Store.rowForEntity?_edit, Option.map_map, rowKeys]
  refine congrFun (congrArg Option.map (funext fun n => ?_)) _
  rw [Function.comp_apply]
  split <;> rfl

/-- What a state lacks depends on the rows by their keys only. -/
theorem map_anchoring_replacement? (reachable : List String) (s : Memory.Store)
    (line : String × NoteRecord) :
    (replacement? env reachable s line).map (anchoring env)
      = if line.1 ∈ reachable ∨ line.2.op ≠ some "anchor" then none
        else
          line.2.patchId.bind fun patchId =>
            (Memo.unique env.patchId (some patchId) reachable).bind fun target =>
              (rowKeys env s (line.2.resolveEntityId env.sha)).map fun keys =>
                ⟨target, env.patchId target, keys.1, keys.2⟩ := by
  rw [replacement?]
  by_cases hskip : line.1 ∈ reachable ∨ line.2.op ≠ some "anchor"
  · rw [if_pos hskip, if_pos hskip, Option.map_none]
  · rw [if_neg hskip, if_neg hskip, Option.map_bind]
    refine congrArg _ (funext fun patchId => ?_)
    rw [Function.comp_apply, Option.map_bind]
    refine congrArg _ (funext fun target => ?_)
    rw [Function.comp_apply, rowKeys, Option.map_map, Option.map_map]
    rfl

theorem map_anchoring_congr {s s' : Memory.Store} (h : rowKeys env s = rowKeys env s')
    (reachable : List String) (line : String × NoteRecord) :
    (replacement? env reachable s line).map (anchoring env)
      = (replacement? env reachable s' line).map (anchoring env) := by
  rw [map_anchoring_replacement?, map_anchoring_replacement?, h]

/-- One entry anchored: one record more, the entry's pending row gone. -/
theorem anchorNoteNow_of_clean (h : p.Clean) (c : Core) (n : Note) (target : String) :
    (∃ r, (anchorNoteNow env git p c n target).log = c.log ++ [(target, r)]
        ∧ saysAnchor env (target, r) (anchoring env (target, n)))
      ∧ (anchorNoteNow env git p c n target).db.pending
          = c.db.pending.filter (fun r => r.entityId ≠ n.entityId)
      ∧ rowKeys env (anchorNoteNow env git p c n target).db.store = rowKeys env c.db.store := by
  have hcall : ∀ call, p.fails call = false := h
  simp only [anchorNoteNow, hcall, Bool.false_eq_true, if_false]
  refine ⟨⟨_, rfl, rfl, rfl, rfl, rfl⟩, ?_, ?_⟩
  · split <;> rfl
  · split
    · exact rowKeys_setSourceRef _ _ _
    · rfl

/-- The orphaned anchors one after another. -/
theorem foldl_anchorOrphan (h : p.Clean) (reachable : List String)
    (l : List (String × NoteRecord)) (c : Core) :
    (∃ added, (l.foldl (anchorOrphan env git p reachable) c).log = c.log ++ added
        ∧ List.Forall₂ (saysAnchor env) added (l.filterMap fun line =>
          (replacement? env reachable c.db.store line).map (anchoring env)))
      ∧ (l.foldl (anchorOrphan env git p reachable) c).db.pending
          = c.db.pending.filter (fun r => r.entityId ∉ (l.filterMap fun line =>
            (replacement? env reachable c.db.store line).map (anchoring env)).map
              Anchoring.entityId)
      ∧ rowKeys env (l.foldl (anchorOrphan env git p reachable) c).db.store
          = rowKeys env c.db.store := by
  induction l generalizing c with
  | nil =>
    refine ⟨⟨[], by simp, .nil⟩, ?_, rfl⟩
    simp
  | cons line l ih =>
    rw [List.foldl_cons, anchorOrphan]
    cases hrep : replacement? env reachable c.db.store line with
    | none =>
      have hskip : (line :: l).filterMap (fun line =>
          (replacement? env reachable c.db.store line).map (anchoring env))
          = l.filterMap fun line =>
            (replacement? env reachable c.db.store line).map (anchoring env) :=
        List.filterMap_cons_none (by rw [hrep, Option.map_none])
      rw [hskip]
      exact ih c
    | some r =>
      obtain ⟨⟨record, hlog, hrecords⟩, hpending, hkeys⟩ := @anchorNoteNow_of_clean env git p h c r.2 r.1
      obtain ⟨⟨added, ihlog, ihrecords⟩, ihpending, ihkeys⟩ := ih (anchorNoteNow env git p c r.2 r.1)
      -- the anchored entry keeps its key, so the later lines find the same replacements
      have hsame : (l.filterMap fun line =>
          (replacement? env reachable (anchorNoteNow env git p c r.2 r.1).db.store line).map
            (anchoring env))
          = l.filterMap fun line =>
            (replacement? env reachable c.db.store line).map (anchoring env) :=
        List.filterMap_congr fun line _ => map_anchoring_congr hkeys reachable line
      have htake : (line :: l).filterMap (fun line =>
          (replacement? env reachable c.db.store line).map (anchoring env))
          = anchoring env r :: l.filterMap fun line =>
            (replacement? env reachable c.db.store line).map (anchoring env) :=
        List.filterMap_cons_some (by rw [hrep, Option.map_some])
      rw [htake]
      rw [hsame] at ihrecords ihpending
      refine ⟨⟨(r.1, record) :: added, ?_, .cons hrecords ihrecords⟩, ?_, ihkeys.trans hkeys⟩
      · rw [ihlog, hlog, List.append_assoc, List.singleton_append]
      -- an anchor takes its own entry off the pending list, the later ones theirs
      · rw [ihpending, hpending, List.filter_filter]
        refine List.filter_congr fun row _ => ?_
        rw [← Bool.decide_and, List.map_cons]
        refine decide_eq_decide.mpr ?_
        rw [List.mem_cons, not_or]
        exact and_comm

/-- What the turn of one pending row does to another. -/
def moved (env : Env) (reachable : List String) (r row : PendingAnchor) : PendingAnchor :=
  match newHead? env reachable row with
  | none => r
  | some head => r.reassign row.entityId head

theorem moved_of_ne {r row : PendingAnchor}
    (h : r.entityId ≠ row.entityId) : moved env reachable r row = r := by
  rw [moved]
  split
  · rfl
  · rw [PendingAnchor.reassign, if_neg h]

theorem moved_self (reachable : List String) (r : PendingAnchor) :
    moved env reachable r r = repointed env reachable r := by
  rw [moved, repointed]
  split
  · rfl
  · rw [PendingAnchor.reassign, if_pos rfl]

@[simp] theorem repointed_entityId (reachable : List String) (r : PendingAnchor) :
    (repointed env reachable r).entityId = r.entityId := by
  rw [repointed]
  split <;> rfl

theorem foldl_moved_of_not_mem {r : PendingAnchor}
    (h : r.entityId ∉ l.map PendingAnchor.entityId) : l.foldl (moved env reachable) r = r := by
  induction l with
  | nil => rfl
  | cons row l ih =>
    rw [List.map_cons, List.mem_cons, not_or] at h
    rw [List.foldl_cons, moved_of_ne h.1]
    exact ih h.2

theorem foldl_moved_of_mem (hl : (l.map PendingAnchor.entityId).Nodup) {r : PendingAnchor}
    (h : r ∈ l) : l.foldl (moved env reachable) r = repointed env reachable r := by
  induction l with
  | nil => cases h
  | cons row l ih =>
    rw [List.map_cons, List.nodup_cons] at hl
    rw [List.foldl_cons]
    rcases List.mem_cons.mp h with heq | hmem
    · rw [← heq, moved_self]
      refine foldl_moved_of_not_mem ?_
      rw [repointed_entityId, heq]
      exact hl.1
    · have hne : r.entityId ≠ row.entityId := by
        intro heq
        exact hl.1 (heq ▸ List.mem_map_of_mem hmem)
      rw [moved_of_ne hne]
      exact ih hl.2 hmem

theorem foldl_repointRow (reachable : List String) (l : List PendingAnchor) (c : Core) :
    (l.foldl (repointRow env reachable) c).db.pending
        = c.db.pending.map (fun r => l.foldl (moved env reachable) r)
      ∧ (l.foldl (repointRow env reachable) c).log = c.log
      ∧ (l.foldl (repointRow env reachable) c).db.store = c.db.store := by
  induction l generalizing c with
  | nil => exact ⟨(List.map_id' _).symm, rfl, rfl⟩
  | cons row l ih =>
    obtain ⟨ihpending, ihlog, ihstore⟩ := ih (repointRow env reachable c row)
    have hstep : (repointRow env reachable c row).db.pending
          = c.db.pending.map (fun r => moved env reachable r row)
        ∧ (repointRow env reachable c row).log = c.log
        ∧ (repointRow env reachable c row).db.store = c.db.store := by
      simp only [repointRow, moved]
      cases newHead? env reachable row with
      | none => exact ⟨(List.map_id' _).symm, rfl, rfl⟩
      | some head => exact ⟨rfl, rfl, rfl⟩
    rw [List.foldl_cons]
    refine ⟨?_, ihlog.trans hstep.2.1, ihstore.trans hstep.2.2⟩
    rw [ihpending, hstep.1, List.map_map]
    rfl

/-- The core of a clean pass. -/
theorem corePass_of_clean (h : p.Clean) (c : Core) :
    (∃ added, (corePass env git p c).log = c.log ++ added
        ∧ List.Forall₂ (saysAnchor env) added ((allNotedRecords c.log).filterMap fun line =>
          (replacement? env git.reachable c.db.store line).map (anchoring env)))
      ∧ (corePass env git p c).db.pending
          = (c.db.pending.filter (fun r => r.entityId ∉
            ((allNotedRecords c.log).filterMap fun line =>
              (replacement? env git.reachable c.db.store line).map (anchoring env)).map
                Anchoring.entityId)).map (repointed env git.reachable)
      ∧ rowKeys env (corePass env git p c).db.store = rowKeys env c.db.store := by
  have hcall : ∀ call, p.fails call = false := h
  simp only [corePass, hcall, Bool.false_eq_true, if_false]
  obtain ⟨hadded, hpending, hkeys⟩ := @foldl_anchorOrphan env git p h git.reachable
    (allNotedRecords c.log) c
  obtain ⟨hmoved, hlog, hstore⟩ := @foldl_repointRow env git.reachable
    ((allNotedRecords c.log).foldl (anchorOrphan env git p git.reachable) c).db.pending
    ((allNotedRecords c.log).foldl (anchorOrphan env git p git.reachable) c)
  rw [hlog, hmoved, hstore]
  refine ⟨hadded, ?_, hkeys⟩
  rw [← hpending]
  exact List.map_congr_left fun r hr => foldl_moved_of_mem
    ((allNotedRecords c.log).foldl (anchorOrphan env git p git.reachable) c).db.pendingUnique hr

end Clean

/-! ## States with a sound cache -/

section Sound

variable {env : Env} {st : State}

/-- The cache holds patch-ids of the commits and nothing else. -/
def State.CacheSound (env : Env) (st : State) : Prop := Memo.Sound env.patchId st.patchIds

theorem reconciled_of_answered (h : st.CacheSound env) {p : Pass}
    (hp : p.Answered env st.patchIds) :
    (st.reconciled env p).log = (corePass env st.git p ⟨st.log, st.db, 0⟩).log
      ∧ (st.reconciled env p).db = (corePass env st.git p ⟨st.log, st.db, 0⟩).db
      ∧ (st.reconciled env p).CacheSound env := by
  have hready : CacheReady env p st.work.2 := ⟨h, hp⟩
  obtain ⟨hcore, hafter⟩ := @reconcileAnchors_of_ready env st.git p _ hready
  have hcore' : (reconcileAnchors env st.git p st.work).1
      = corePass env st.git p ⟨st.log, st.db, 0⟩ := hcore
  exact ⟨congrArg Core.log hcore', congrArg Core.db hcore', hafter.1⟩

theorem healedBy_of_sound (h : st.CacheSound env) {p : Pass} (hp : p.Clean) :
    HealedBy env st p := by
  obtain ⟨hlog, hdb, -⟩ := reconciled_of_answered h (hp.answered st.patchIds)
  obtain ⟨hlog', hdb', -⟩ := @reconciled_of_answered env
    { st with patchIds := Memo.Table.empty } Memo.sound_empty p (hp.answered _)
  obtain ⟨⟨added, hadded, hrecords⟩, hpending, -⟩ := @corePass_of_clean env st.git p hp
    ⟨st.log, st.db, 0⟩
  exact ⟨⟨added, hlog.trans hadded, hrecords⟩, by rw [hdb, hpending]; rfl,
    hlog.trans hlog'.symm, hdb.trans hdb'.symm⟩

theorem heals_of_sound (h : st.CacheSound env) : Heals env st :=
  fun _ hp => healedBy_of_sound h hp

theorem rowKeys_reconciled (h : st.CacheSound env) {p : Pass} (hp : p.Clean) :
    rowKeys env (st.reconciled env p).db.store = rowKeys env st.db.store := by
  obtain ⟨-, hdb, -⟩ := reconciled_of_answered h (hp.answered st.patchIds)
  rw [hdb]
  exact (@corePass_of_clean env st.git p hp ⟨st.log, st.db, 0⟩).2.2

theorem settled_iff : Settled env st ↔ st.anchorings env = [] := by
  have hnone : st.anchorings env = [] ↔ ∀ line ∈ st.log,
      (replacement? env st.git.reachable st.db.store line).map (anchoring env) = none := by
    rw [State.anchorings, List.filterMap_eq_nil_iff]
    exact ⟨fun h line hline => h line ((mem_sortBy _).mpr hline),
      fun h line hline => h line ((mem_sortBy _).mp hline)⟩
  rw [hnone]
  refine forall_congr' fun line => forall_congr' fun _ => ?_
  rw [Option.map_eq_none_iff, replacement?]
  -- a reachable line, or one that is no anchor, asks for nothing
  by_cases hskip : line.1 ∈ st.git.reachable ∨ line.2.op ≠ some "anchor"
  · rw [if_pos hskip]
    refine iff_of_true ?_ rfl
    intro hunreachable hop
    rcases hskip with hreachable | hother
    · exact absurd hreachable hunreachable
    · exact absurd hop hother
  · rw [if_neg hskip]
    rw [not_or, not_not] at hskip
    constructor
    · intro h
      cases hpatch : line.2.patchId with
      | none => rfl
      | some patchId =>
        rw [Option.bind_some]
        cases hunique : Memo.unique env.patchId (some patchId) st.git.reachable with
        | none => rfl
        | some target =>
          rw [Option.bind_some, h hskip.1 hskip.2 patchId hpatch (by rw [hunique]; simp)]
          rfl
    · intro h _ _ patchId hpatch hunique
      obtain ⟨target, htarget⟩ := Option.ne_none_iff_exists'.mp hunique
      rw [Option.mem_def.mp hpatch, Option.bind_some, htarget, Option.bind_some,
        Option.map_eq_none_iff] at h
      exact h

theorem replacement?_of_reachable {reachable : List String} {s : Memory.Store}
    {line : String × NoteRecord} (h : line.1 ∈ reachable) :
    replacement? env reachable s line = none := by
  rw [replacement?, if_pos (.inl h)]

theorem target_mem_of_anchoring {a : Anchoring} (h : a ∈ st.anchorings env) :
    a.target ∈ st.git.reachable := by
  obtain ⟨line, -, hline⟩ := List.mem_filterMap.mp h
  rw [map_anchoring_replacement?] at hline
  split at hline
  · cases hline
  · obtain ⟨patchId, -, hline⟩ := Option.bind_eq_some_iff.mp hline
    obtain ⟨target, htarget, hline⟩ := Option.bind_eq_some_iff.mp hline
    obtain ⟨keys, -, rfl⟩ := Option.map_eq_some_iff.mp hline
    exact (Memo.unique_eq_some htarget).1

/-- A clean pass leaves its own anchors to do again: it adds records on reachable commits only. -/
theorem mem_anchorings_reconciled (h : st.CacheSound env) {p : Pass} (hp : p.Clean)
    (a : Anchoring) :
    a ∈ (st.reconciled env p).anchorings env ↔ a ∈ st.anchorings env := by
  obtain ⟨⟨added, hadded, hrecords⟩, -, -, -⟩ := healedBy_of_sound h hp
  have hkeys := rowKeys_reconciled h hp
  rw [State.anchorings, State.anchorings, List.mem_filterMap, List.mem_filterMap]
  constructor
  · rintro ⟨line, hline, ha⟩
    rw [map_anchoring_congr hkeys] at ha
    rw [allNotedRecords, mem_sortBy, hadded, List.mem_append] at hline
    rcases hline with hold | hnew
    · exact ⟨line, (mem_sortBy _).mpr hold, ha⟩
    · -- a record just added is on its target
      obtain ⟨b, hb, hrecords⟩ := Pass.exists_of_forall₂ hrecords hnew
      have hreachable : line.1 ∈ st.git.reachable := hrecords.1 ▸ target_mem_of_anchoring hb
      rw [replacement?_of_reachable (show line.1 ∈ (st.reconciled env p).git.reachable from
        hreachable)] at ha
      cases ha
  · rintro ⟨line, hline, ha⟩
    refine ⟨line, ?_, ?_⟩
    · rw [allNotedRecords, mem_sortBy, hadded]
      exact List.mem_append_left _ ((mem_sortBy _).mp hline)
    · rw [map_anchoring_congr hkeys]
      exact ha

theorem repointed_repointed (reachable : List String) (r : PendingAnchor) :
    repointed env reachable (repointed env reachable r) = repointed env reachable r := by
  cases hhead : newHead? env reachable r with
  | none =>
    have hstay : repointed env reachable r = r := by rw [repointed, hhead]
    rw [hstay, hstay]
  | some head =>
    have hmove : repointed env reachable r = { r with headAtWrite := head } := by
      rw [repointed, hhead]
    -- the new head is reachable, and such a row stays
    have hreachable : head ∈ reachable := by
      rw [newHead?] at hhead
      split at hhead
      · cases hhead
      · obtain ⟨patchId, -, hunique⟩ := Option.bind_eq_some_iff.mp hhead
        exact (Memo.unique_eq_some hunique).1
    have hnone : newHead? env reachable { r with headAtWrite := head } = none := by
      rw [newHead?, if_pos hreachable]
    rw [hmove, repointed, hnone]

theorem pending_twice (h : st.CacheSound env) {p p' : Pass} (hp : p.Clean) (hp' : p'.Clean) :
    ((st.reconciled env p).reconciled env p').db.pending = (st.reconciled env p).db.pending := by
  have hsound : (st.reconciled env p).CacheSound env :=
    (reconciled_of_answered h (hp.answered st.patchIds)).2.2
  rw [(healedBy_of_sound hsound hp').pending, State.expectedPending,
    (healedBy_of_sound h hp).pending]
  have hkeep : (st.expectedPending env).filter (fun r =>
      r.entityId ∉ ((st.reconciled env p).anchorings env).map Anchoring.entityId)
        = st.expectedPending env := by
    rw [List.filter_eq_self]
    intro r hr
    obtain ⟨r₀, hr₀, rfl⟩ := List.mem_map.mp hr
    rw [repointed_entityId, decide_eq_true_eq]
    have hout : r₀.entityId ∉ (st.anchorings env).map Anchoring.entityId := by
      simpa using (List.mem_filter.mp hr₀).2
    intro hin
    obtain ⟨a, ha, hid⟩ := List.mem_map.mp hin
    exact hout (hid ▸ List.mem_map_of_mem ((mem_anchorings_reconciled h hp a).mp ha))
  rw [hkeep]
  refine (List.map_congr_left fun r hr => ?_).trans (List.map_id _)
  obtain ⟨r₀, -, rfl⟩ := List.mem_map.mp hr
  exact repointed_repointed _ r₀

/-- A pass nothing goes wrong in. -/
def plainPass : Pass where
  visit l := l
  visit_perm _ := .refl _
  fails _ := false
  clock _ := ⟨1700000000, 1700000000000⟩

theorem plainPass_clean : plainPass.Clean := fun _ => rfl

/-- Passing twice is passing once exactly where no orphaned anchor has a replacement. -/
theorem idempotent_iff (h : st.CacheSound env) : Idempotent env st ↔ Settled env st := by
  -- the second pass adds one record for each anchor the first one added
  have hsecond : ∀ p p' : Pass, p.Clean → p'.Clean →
      ∃ added, ((st.reconciled env p).reconciled env p').log = (st.reconciled env p).log ++ added
        ∧ List.Forall₂ (saysAnchor env) added ((st.reconciled env p).anchorings env) := by
    intro p p' hp hp'
    have hsound : (st.reconciled env p).CacheSound env :=
      (reconciled_of_answered h (hp.answered st.patchIds)).2.2
    exact (healedBy_of_sound hsound hp').anchors
  rw [settled_iff]
  constructor
  · intro hidem
    obtain ⟨added, hadded, hrecords⟩ := hsecond plainPass plainPass plainPass_clean plainPass_clean
    rw [(hidem plainPass plainPass plainPass_clean plainPass_clean).1] at hadded
    have hnil : added = [] := by simpa using hadded.symm
    rw [hnil, List.forall₂_nil_left_iff] at hrecords
    rw [List.eq_nil_iff_forall_not_mem]
    intro a ha
    have ha' := (mem_anchorings_reconciled h plainPass_clean a).mpr ha
    rw [hrecords] at ha'
    cases ha'
  · intro hnil p p' hp hp'
    refine ⟨?_, pending_twice h hp hp'⟩
    obtain ⟨added, hadded, hrecords⟩ := hsecond p p' hp hp'
    have hnil' : (st.reconciled env p).anchorings env = [] := by
      rw [List.eq_nil_iff_forall_not_mem]
      intro a ha
      have ha' := (mem_anchorings_reconciled h hp a).mp ha
      rw [hnil] at ha'
      cases ha'
    rw [hnil', List.forall₂_nil_right_iff] at hrecords
    rw [hadded, hrecords, List.append_nil]

end Sound

/-! ## Runs -/

/-- No pass fails to compute a patch-id that a commit has. -/
def PatchIdsAnswered (env : Env) (st : State) : Label → Prop
  | .pass p => p.Answered env st.patchIds
  | .refs _ => True
  | .edit _ _ => True

theorem cacheSound_step {env : Env} {st : State} {label : Label} (h : st.CacheSound env)
    (hlabel : PatchIdsAnswered env st label) : (step env st label).CacheSound env := by
  cases label with
  | pass p => exact (reconciled_of_answered h hlabel).2.2
  | refs git => exact h
  | edit log db => exact h

/-- Over any run in which no patch-id goes missing, whatever else fails and whoever
    else writes, every clean pass heals, and a second one is idle exactly when no
    orphaned anchor has a replacement. -/
theorem eachState_reconciles (env : Env) (git : Git) (log : List (String × NoteRecord)) (db : Db)
    (labels : List Label)
    (h : EachStep (step env) (PatchIdsAnswered env) (State.start git log db) labels) :
    EachState (step env) (fun st => Heals env st ∧ (Idempotent env st ↔ Settled env st))
      (State.start git log db) labels := by
  have hsound : EachState (step env) (State.CacheSound env) (State.start git log db) labels :=
    eachState_of_inv (fun (st : State) label (hst : st.CacheSound env) hlabel =>
      cacheSound_step hst hlabel) (show (State.start git log db).CacheSound env from
        Memo.sound_empty) h
  exact hsound.imp _ fun st hst => ⟨heals_of_sound hst, idempotent_iff hst⟩

/-! ### A commit that was rebased -/

/-- The commit and the one that replaced it have the same diff. -/
def rebaseEnv : Env where
  sha := axumSha
  patchId commit := if commit = "1f0c" ∨ commit = "9e2d" then some "c5a0" else none

/-- Only the new one is reachable. -/
def rebasedGit : Git where
  reachable := ["9e2d"]
  reachableNodup := List.nodup_singleton _
  history := ["9e2d"]
  historyNodup := List.nodup_singleton _

/-- The entry the old commit carried. -/
def axumNote : Note := recordToNote axumSha (axumLine none [])

def axumAnchor : NoteRecord :=
  { axumLine none [] with op := some "anchor", patchId := some "c5a0" }

def axumDb : Db where
  store :=
    { rows := [axumNote]
      edges := []
      uuidUnique := List.nodup_singleton _
      entityUnique := List.nodup_singleton _
      remoteUnique := List.nodup_nil }
  pending := []
  pendingUnique := List.nodup_nil

def rebased : State := State.start rebasedGit [("1f0c", axumAnchor)] axumDb

/-- A pass in which the new commit's patch-id could not be computed. -/
def lostPass : Pass :=
  { plainPass with fails := fun call => match call with
    | .patchId _ => true
    | _ => false }

/-- The second pass appends the anchor of the first again; and after a pass that
    could not compute the patch-id no later pass finds the replacement. -/
theorem not_reconciles_of_rebase :
    ¬ Idempotent rebaseEnv rebased ∧ ¬ Heals rebaseEnv (rebased.reconciled rebaseEnv lostPass) := by
  have hclean : plainPass.Clean := fun _ => rfl
  constructor
  · intro h
    have hlog := congrArg List.length (h plainPass plainPass hclean hclean).1
    exact absurd hlog (by decide +kernel)
  · intro h
    have hlog := congrArg List.length (h plainPass hclean).log_asFresh
    exact absurd hlog (by decide +kernel)

/-- The cache stays sound over passes that compute what they ask for. -/
theorem eachState_reconciles_of_rebase :
    EachState (step rebaseEnv)
      (fun st => Heals rebaseEnv st ∧ (Idempotent rebaseEnv st ↔ Settled rebaseEnv st)) rebased
      [.pass plainPass, .refs rebasedGit, .pass plainPass] :=
  eachState_reconciles rebaseEnv rebasedGit [("1f0c", axumAnchor)] axumDb _
    ⟨plainPass_clean.answered _, trivial, plainPass_clean.answered _, trivial⟩

end Anchors
end Inkentry
