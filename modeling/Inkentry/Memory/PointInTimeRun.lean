/-
  Inkentry.Memory.PointInTimeRun

  The listings at an instant over whole histories.

  `Timed` is the invariant: the store and the carrier give every entry the same
  span, and the log tells exactly these spans.  Each operation updates the spans
  at the entries it touches, and does so on all three sides alike, unless it is
  one that `KeepsWindows` leaves out: an archive, which ends no row's window,
  and the few ways a record can begin or end at another time than its row
  (`listsPointInTime_of_keepsWindows`).
-/

import Inkentry.Memory.PointInTime

namespace Inkentry
namespace Memory

open GitNotes

/-! ## The condition -/

/-- One more copy, valid from or created at these times, leaves a fold's start alone. -/
def KeepsStart (f : NoteRecord) (validAt : Option Int) (createdAt : Int) : Prop :=
  match f.validAt, validAt with
  | some since, some since' => since ≤ since'
  | some _, none => True
  | none, some since' => since' = f.createdAt
  | none, none => f.createdAt ≤ createdAt

/-- The same of the entry's fold, if it has one. -/
def CarrierKeepsStart (sha : String → String) (carrier : List NoteRecord) (entity : String)
    (validAt : Option Int) (createdAt : Int) : Prop :=
  ∀ f ∈ foldOf sha carrier entity, KeepsStart f validAt createdAt

/-- The record of an add starts when its row does. -/
def StartsAlike (sha : String → String) (carrier : List NoteRecord) (clocks : Clocks)
    (args : AddArgs) : Prop :=
  match foldOf sha carrier (args.entityId sha) with
  | some f => KeepsStart f args.validAt clocks.record.nowSecs
  | none => args.validAt = none → clocks.record.nowSecs = clocks.createdAt

/-- The operation moves the row's window and the record's alike. -/
def KeepsWindows (env : StoreEnv) (w : WriteThrough) : Operation → Prop
  | .command (.add uuid clocks args) => (memoryAdd env w uuid clocks args).isSome →
      StartsAlike env.sha w.carrier clocks args
        ∧ ∀ old ∈ args.supersedes.bind w.store.get, old.entityId ≠ args.entityId env.sha
          ∧ clocks.invalidAt = clocks.unixepoch
          ∧ CarrierKeepsStart env.sha w.carrier old.entityId old.validAt clocks.update.nowSecs
  | .command (.archive _ id) => w.store.hasActive id = false
  | .command (.supersede clocks oldId newId) => (memorySupersede env w clocks oldId newId).isSome →
      ∀ old ∈ w.store.get oldId,
        CarrierKeepsStart env.sha w.carrier old.entityId old.validAt clocks.update.nowSecs
  | .anchor clock id _ _ => ∀ note ∈ w.store.get id,
      CarrierKeepsStart env.sha w.carrier note.entityId note.validAt clock.nowSecs

instance (f : NoteRecord) (validAt : Option Int) (createdAt : Int) :
    Decidable (KeepsStart f validAt createdAt) := by
  unfold KeepsStart
  split <;> infer_instance

instance (sha : String → String) (carrier : List NoteRecord) (entity : String)
    (validAt : Option Int) (createdAt : Int) :
    Decidable (CarrierKeepsStart sha carrier entity validAt createdAt) :=
  inferInstanceAs (Decidable (∀ f ∈ foldOf sha carrier entity, KeepsStart f validAt createdAt))

instance (sha : String → String) (carrier : List NoteRecord) (clocks : Clocks) (args : AddArgs) :
    Decidable (StartsAlike sha carrier clocks args) := by
  unfold StartsAlike
  split <;> infer_instance

instance (env : StoreEnv) (w : WriteThrough) (op : Operation) :
    Decidable (KeepsWindows env w op) := by
  unfold KeepsWindows
  split <;> infer_instance

/-! ## The log -/

variable {spans : String → Option Span}
variable {entity : String}

/-- The log tells exactly these spans. -/
structure Tells (log : List Event) (spans : String → Option Span) : Prop where
  began : ∀ entity since,
    .began entity since ∈ log ↔ ∃ expires, spans entity = some ⟨since, expires⟩
  ended : ∀ entity instant,
    .ended entity instant ∈ log ↔ ∃ since, spans entity = some ⟨since, some instant⟩

theorem Tells.live_iff {log : List Event} (h : Tells log spans) (T : Int) (entity : String) :
    Live log T entity ↔ ∃ span, spans entity = some span ∧ span.Covers T := by
  constructor
  · rintro ⟨⟨since, hbegan, hle⟩, hended⟩
    obtain ⟨expires, hspan⟩ := (h.began entity since).mp hbegan
    refine ⟨_, hspan, hle, fun t ht => hended t ((h.ended entity t).mpr ⟨since, ?_⟩)⟩
    rw [hspan]
    exact congrArg some (congrArg (Span.mk since) ht)
  · rintro ⟨⟨since, expires⟩, hspan, hle, hexpires⟩
    refine ⟨⟨since, (h.began entity since).mpr ⟨expires, hspan⟩, hle⟩, fun t ht => ?_⟩
    obtain ⟨since', hspan'⟩ := (h.ended entity t).mp ht
    rw [hspan, Option.some_inj, Span.mk.injEq] at hspan'
    exact hexpires t hspan'.2

theorem Tells.begin {log : List Event} (h : Tells log spans) (hnone : spans entity = none)
    (since : Int) :
    Tells (log ++ [.began entity since]) (Function.update spans entity (some ⟨since, none⟩)) := by
  constructor
  · intro entity' since'
    rw [List.mem_append, h.began, List.mem_singleton, Event.began.injEq]
    by_cases heq : entity' = entity
    · subst heq
      rw [Function.update_self, hnone]
      simp [eq_comm]
    · rw [Function.update_of_ne heq]
      simp [heq]
  · intro entity' instant
    rw [List.mem_append, h.ended, List.mem_singleton]
    by_cases heq : entity' = entity
    · subst heq
      rw [Function.update_self, hnone]
      simp
    · rw [Function.update_of_ne heq]
      simp

theorem Tells.finish {log : List Event} (h : Tells log spans) {since : Int}
    (hopen : spans entity = some ⟨since, none⟩) (instant : Int) :
    Tells (log ++ [.ended entity instant])
      (Function.update spans entity (some ⟨since, some instant⟩)) := by
  constructor
  · intro entity' since'
    rw [List.mem_append, h.began, List.mem_singleton]
    by_cases heq : entity' = entity
    · subst heq
      rw [Function.update_self, hopen]
      simp
    · rw [Function.update_of_ne heq]
      simp
  · intro entity' instant'
    rw [List.mem_append, h.ended, List.mem_singleton, Event.ended.injEq]
    by_cases heq : entity' = entity
    · subst heq
      rw [Function.update_self, hopen]
      simp [eq_comm]
    · rw [Function.update_of_ne heq]
      simp [heq]

/-! ## Spans of the rows -/

/-- A row is filed under its content, and an active one is open-ended. -/
structure RowOpen (sha : String → String) (n : Note) : Prop where
  keyed : noteEntityId sha n = n.entityId
  open_of_active : n.status = "active" → n.invalidAt = none

def RowsOpen (sha : String → String) (s : Store) : Prop := ∀ n ∈ s.rows, RowOpen sha n

theorem RowOpen.apply {sha : String → String} {n : Note} (h : RowOpen sha n) (e : RowEdit)
    (hopen : (e.apply n).status = "active" → (e.apply n).invalidAt = none) :
    RowOpen sha (e.apply n) where
  keyed := by
    obtain ⟨hkind, htitle, hbody⟩ := e.content_apply n
    rw [e.entityId_apply, ← h.keyed, noteEntityId, noteEntityId, hkind, htitle, hbody]
  open_of_active := hopen

theorem RowsOpen.edit {sha : String → String} {s : Store} (h : RowsOpen sha s) (e : RowEdit)
    (p : Note → Bool) (hopen : ∀ n ∈ s.rows, p n = true → (e.apply n).status = "active" →
      (e.apply n).invalidAt = none) : RowsOpen sha (s.edit e p) := by
  intro m hm
  obtain ⟨n, hn, rfl⟩ := List.mem_map.mp hm
  by_cases hp : p n = true
  · simp only [hp, if_true]
    exact (h n hn).apply e (hopen n hn hp)
  · simp only [hp]
    exact h n hn

theorem RowsOpen.insertEdge {sha : String → String} {s : Store} (h : RowsOpen sha s)
    (e : MemoryEdge) : RowsOpen sha (s.insertEdge e) := by
  intro n hn
  rw [Store.insertEdge_rows] at hn
  exact h n hn

theorem span?_insertEdge (s : Store) (e : MemoryEdge) : (s.insertEdge e).span? = s.span? := by
  funext entity
  rw [Store.span?, Store.rowForEntity?, Store.insertEdge_rows, Store.span?, Store.rowForEntity?]

/-- An edit that leaves the times of the rows it matches alone leaves their spans alone. -/
theorem span?_edit {s : Store} {e : RowEdit} {p : Note → Bool}
    (h : ∀ n, rowSpan (e.apply n) = rowSpan n) : (s.edit e p).span? = s.span? := by
  funext entity
  rw [Store.span?, Store.rowForEntity?_edit, Option.map_map, Store.span?]
  congr 1
  funext n
  by_cases hp : p n = true
  · simp only [Function.comp_apply, hp, if_true, h]
  · simp only [Function.comp_apply, hp, if_false, Bool.false_eq_true]

theorem span?_of_mem {s : Store} {n : Note} (hn : n ∈ s.rows) :
    s.span? n.entityId = some (rowSpan n) := by
  rw [Store.span?, Store.rowForEntity?_eq_some_iff.mpr ⟨hn, rfl⟩, Option.map_some]

theorem span?_eq_none_iff {s : Store} :
    s.span? entity = none ↔ entity ∉ s.rows.map Note.entityId := by
  rw [Store.span?, Option.map_eq_none_iff, Store.rowForEntity?, List.find?_eq_none]
  simp

theorem span?_insertRow {s s' : Store} {n : Note} (h : s.insertRow n = some s') :
    s'.span? = Function.update s.span? n.entityId (some (rowSpan n)) := by
  obtain ⟨hrows, -, -, hfresh⟩ := Store.insertRow_eq_some h
  have hmem : n ∈ s'.rows := by
    rw [hrows]
    exact List.mem_append_right _ (List.mem_singleton_self n)
  funext entity
  by_cases heq : entity = n.entityId
  · subst heq
    rw [Function.update_self, span?_of_mem hmem]
  · rw [Function.update_of_ne heq, Store.span?, Store.rowForEntity?, hrows, List.find?_append]
    have hmiss : ([n] : List Note).find? (fun m => m.entityId = entity) = none := by
      rw [List.find?_eq_none]
      intro m hm
      rw [List.mem_singleton.mp hm, decide_eq_true_iff]
      exact fun hn => heq hn.symm
    rw [hmiss, Option.or_none, Store.span?, Store.rowForEntity?]

theorem span?_supersede {s : Store} {old : Note} (hold : old ∈ s.rows)
    (hactive : old.status = "active") (hopen : old.invalidAt = none) (newId : NoteId) (now : Int) :
    (s.edit (supersedeEdit newId now) (isActiveRow old.id)).span? =
      Function.update s.span? old.entityId (some ⟨(rowSpan old).since, some now⟩) := by
  funext entity
  rw [Store.span?, Store.rowForEntity?_edit, Option.map_map]
  by_cases heq : entity = old.entityId
  · subst heq
    have hp : isActiveRow old.id old = true := by simp [isActiveRow, hactive]
    rw [Function.update_self, Store.rowForEntity?_eq_some_iff.mpr ⟨hold, rfl⟩, Option.map_some,
      Function.comp_apply, if_pos hp]
    simp only [supersedeEdit, rowSpan, hopen, Option.none_or]
  · rw [Function.update_of_ne heq, Store.span?]
    cases hrow : s.rowForEntity? entity with
    | none => rfl
    | some n =>
      obtain ⟨hn, hent⟩ := Store.rowForEntity?_eq_some_iff.mp hrow
      have hp : ¬ isActiveRow old.id n = true := by
        intro hmatch
        have hid : n.id = old.id := by
          rw [isActiveRow, Bool.and_eq_true, decide_eq_true_iff] at hmatch
          exact hmatch.1
        have hsame := List.inj_on_of_nodup_map s.uuidUnique hn hold hid
        exact heq (hent.symm.trans (congrArg Note.entityId hsame))
      rw [Option.map_some, Option.map_some, Function.comp_apply, if_neg hp]

/-! ## Spans on the carrier -/

section Carrier

variable {sha : String → String}
variable {r : NoteRecord}

theorem earliest_append (bounds : List (Option Int)) (b : Option Int) :
    earliest (bounds ++ [b]) = minSome (earliest bounds) b := by
  rw [earliest, List.foldl_append, List.foldl_cons, List.foldl_nil, earliest]

theorem keepsStart_iff {f : NoteRecord} {validAt : Option Int} {createdAt : Int} :
    KeepsStart f validAt createdAt ↔
      (minSome f.validAt validAt).getD (min f.createdAt createdAt) = (recordSpan f).since := by
  unfold KeepsStart recordSpan
  cases f.validAt <;> cases validAt <;> simp [minSome]

theorem foldGroup_append {g : List NoteRecord} {f r : NoteRecord} (hf : foldGroup g = some f) :
    ∃ f', foldGroup (g ++ [r]) = some f' ∧ f'.validAt = minSome f.validAt r.validAt
      ∧ f'.createdAt = min f.createdAt r.createdAt
      ∧ f'.invalidAt = minSome f.invalidAt r.invalidAt := by
  have hne : g ++ [r] ≠ [] := List.append_ne_nil_of_right_ne_nil _ (List.cons_ne_nil r [])
  obtain ⟨f', hf'⟩ := Option.isSome_iff_exists.mp (foldGroup_isSome hne)
  refine ⟨f', hf', ?_, ?_, ?_⟩
  · rw [foldGroup_validAt hf', List.map_append, List.map_singleton, earliest_append,
      foldGroup_validAt hf]
  · obtain ⟨⟨x, hx, hxf⟩, hmin⟩ := foldGroup_createdAt hf
    obtain ⟨⟨y, hy, hyf⟩, hmin'⟩ := foldGroup_createdAt hf'
    have hle := hmin' x (List.mem_append_left _ hx)
    have hle' := hmin' r (List.mem_append_right _ (List.mem_singleton_self r))
    rcases List.mem_append.mp hy with hold | hnew
    · have hge := hmin y hold
      omega
    · obtain rfl := List.mem_singleton.mp hnew
      omega
  · rw [foldGroup_invalidAt hf', List.map_append, List.map_singleton, earliest_append,
      foldGroup_invalidAt hf]

theorem carrierSpan?_append (carrier : List NoteRecord) (r : NoteRecord) :
    carrierSpan? sha (carrier ++ [r]) = Function.update (carrierSpan? sha carrier)
      (r.resolveEntityId sha) (carrierSpan? sha (carrier ++ [r]) (r.resolveEntityId sha)) := by
  funext entity
  by_cases heq : entity = r.resolveEntityId sha
  · rw [heq, Function.update_self]
  · rw [Function.update_of_ne heq, carrierSpan?, foldOf,
      groupOf_append_of_ne fun h => heq h.symm, carrierSpan?, foldOf]

theorem carrierSpan?_begin {carrier : List NoteRecord}
    (hnone : carrierSpan? sha carrier (r.resolveEntityId sha) = none) :
    carrierSpan? sha (carrier ++ [r]) =
      Function.update (carrierSpan? sha carrier) (r.resolveEntityId sha) (some (recordSpan r)) := by
  have hnil : groupOf sha carrier (r.resolveEntityId sha) = [] := by
    by_contra hne
    obtain ⟨f, hf⟩ := Option.isSome_iff_exists.mp (foldGroup_isSome hne)
    rw [carrierSpan?, foldOf, hf, Option.map_some] at hnone
    exact absurd hnone (Option.some_ne_none _)
  have hself : carrierSpan? sha (carrier ++ [r]) (r.resolveEntityId sha) = some (recordSpan r) := by
    rw [carrierSpan?, foldOf, groupOf_append_of_eq rfl, hnil, List.nil_append, foldGroup_singleton,
      Option.map_some]
  rw [carrierSpan?_append, hself]

/-- A further record that keeps the start may bring the end forward. -/
theorem carrierSpan?_further {carrier : List NoteRecord} {span : Span}
    (hspan : carrierSpan? sha carrier (r.resolveEntityId sha) = some span)
    (hkeeps : CarrierKeepsStart sha carrier (r.resolveEntityId sha) r.validAt r.createdAt) :
    carrierSpan? sha (carrier ++ [r]) = Function.update (carrierSpan? sha carrier)
      (r.resolveEntityId sha) (some ⟨span.since, minSome span.expires r.invalidAt⟩) := by
  obtain ⟨f, hf, rfl⟩ := Option.map_eq_some_iff.mp hspan
  obtain ⟨f', hf', hvalid, hcreated, hinvalid⟩ := @foldGroup_append _ f r hf
  have hself : carrierSpan? sha (carrier ++ [r]) (r.resolveEntityId sha) =
      some ⟨(recordSpan f).since, minSome (recordSpan f).expires r.invalidAt⟩ := by
    rw [carrierSpan?, foldOf, groupOf_append_of_eq rfl, hf', Option.map_some,
      ← keepsStart_iff.mp (hkeeps f hf), recordSpan, hvalid, hcreated, hinvalid, recordSpan]
  rw [carrierSpan?_append, hself]

/-- One that names no other end changes nothing. -/
theorem carrierSpan?_again {carrier : List NoteRecord} {span : Span}
    (hspan : carrierSpan? sha carrier (r.resolveEntityId sha) = some span)
    (hkeeps : CarrierKeepsStart sha carrier (r.resolveEntityId sha) r.validAt r.createdAt)
    (hend : r.invalidAt = none ∨ r.invalidAt = span.expires) :
    carrierSpan? sha (carrier ++ [r]) = carrierSpan? sha carrier := by
  have hsame : minSome span.expires r.invalidAt = span.expires := by
    rcases hend with hnone | hsome
    · rw [hnone]
      cases span.expires <;> rfl
    · rw [hsome]
      cases span.expires with
      | none => rfl
      | some t => exact congrArg some (min_self t)
  rw [carrierSpan?_further hspan hkeeps, hsame, ← hspan, Function.update_eq_self]

end Carrier

/-! ## The invariant -/

/-- Store, carrier and log have the same spans. -/
structure Timed (sha : String → String) (h : History) : Prop where
  rows : RowsOpen sha h.machine.store
  records : ∀ r ∈ h.machine.carrier, r.schemaVersion = 1 ∧ r.ContentKeyed sha
  carried : carrierSpan? sha h.machine.carrier = h.machine.store.span?
  told : Tells h.log h.machine.store.span?

theorem Timed.fresh (sha : String → String) : Timed sha History.fresh where
  rows n hn := absurd hn List.not_mem_nil
  records r hr := absurd hr List.not_mem_nil
  carried := rfl
  told := by
    constructor
    · intro entity since
      refine iff_of_false List.not_mem_nil ?_
      rintro ⟨expires, hspan⟩
      exact absurd hspan.symm (Option.some_ne_none _)
    · intro entity instant
      refine iff_of_false List.not_mem_nil ?_
      rintro ⟨since, hspan⟩
      exact absurd hspan.symm (Option.some_ne_none _)

theorem Timed.listsPointInTime {env : StoreEnv} {h : History} (ht : Timed env.sha h) :
    ListsPointInTime env h := by
  have hrows : ∀ limit includeArchived T,
      Lists (h.machine.store.listFiltered none limit includeArchived (some T)) (min limit 500)
        (Live h.log T) := fun limit includeArchived T =>
    lists_of_spans (ht.told.live_iff T) limit includeArchived
  have hcarrier : ∀ repo : Repo, (repo.recordsWithCommit.map Prod.snd).Perm h.machine.carrier →
      ∀ limit includeArchived T, ∃ notes,
        Carrier.list env.sha repo none limit includeArchived (some T) = some notes
          ∧ Lists notes (min limit 500) (Live h.log T) := by
    intro repo hperm limit includeArchived T
    have hread : Carrier.readable repo = true := by
      refine List.all_eq_true.mpr fun p hp => ?_
      have hmem : p.2 ∈ h.machine.carrier := hperm.mem_iff.mp (List.mem_map_of_mem hp)
      rw [(ht.records p.2 hmem).1]
      rfl
    refine ⟨_, if_pos hread, lists_of_carrierSpans hperm (fun r hr => (ht.records r hr).2) ?_ _ _⟩
    rw [ht.carried]
    exact ht.told.live_iff T
  refine ⟨hrows, hcarrier, ?_⟩
  intro repo hperm limit includeArchived T notes hnotes hcut hcut' entity
  obtain ⟨notes', hnotes', hlists⟩ := hcarrier repo hperm limit includeArchived T
  obtain rfl := Option.some.inj (hnotes.symm.trans hnotes')
  exact (hrows limit includeArchived T).agree hlists hcut hcut' entity

/-! ## What each effect does to the invariant -/

section Effects

variable {sha : String → String} {s : Store} {carrier : List NoteRecord} {log : List Event}

theorem Timed.insertEdge (h : Timed sha ⟨⟨s, carrier⟩, log⟩) (e : MemoryEdge) :
    Timed sha ⟨⟨s.insertEdge e, carrier⟩, log⟩ where
  rows := RowsOpen.insertEdge h.rows e
  records := h.records
  carried := h.carried.trans (span?_insertEdge s e).symm
  told := by
    have hspans : (s.insertEdge e).span? = s.span? := span?_insertEdge s e
    show Tells log (s.insertEdge e).span?
    rw [hspans]
    exact h.told

theorem Timed.edit (h : Timed sha ⟨⟨s, carrier⟩, log⟩) (e : RowEdit) (p : Note → Bool)
    (hspan : ∀ n, rowSpan (e.apply n) = rowSpan n) (hstatus : ∀ n, (e.apply n).status = n.status) :
    Timed sha ⟨⟨s.edit e p, carrier⟩, log⟩ where
  rows := by
    refine RowsOpen.edit h.rows e p fun n hn _ hactive => ?_
    have hopen : (e.apply n).invalidAt = n.invalidAt := congrArg Span.expires (hspan n)
    rw [hopen]
    exact (h.rows n hn).open_of_active ((hstatus n).symm.trans hactive)
  records := h.records
  carried := h.carried.trans (span?_edit hspan).symm
  told := by
    have hspans : (s.edit e p).span? = s.span? := span?_edit hspan
    show Tells log (s.edit e p).span?
    rw [hspans]
    exact h.told

/-- The records with one more, which is as the commands write them. -/
theorem records_append {r : NoteRecord}
    (h : ∀ x ∈ carrier, x.schemaVersion = 1 ∧ x.ContentKeyed sha)
    (hr : r.schemaVersion = 1 ∧ r.ContentKeyed sha) :
    ∀ x ∈ carrier ++ [r], x.schemaVersion = 1 ∧ x.ContentKeyed sha := by
  intro x hx
  rcases List.mem_append.mp hx with hold | hnew
  · exact h x hold
  · rw [List.mem_singleton.mp hnew]
    exact hr

/-- A fresh row and its record begin an entry. -/
theorem Timed.begin (h : Timed sha ⟨⟨s, carrier⟩, log⟩) {s' : Store} {n : Note} (r : NoteRecord)
    (hins : s.insertRow n = some s') (hn : RowOpen sha n) (hopen : n.invalidAt = none)
    (hr : r.schemaVersion = 1 ∧ r.ContentKeyed sha) (hkey : r.resolveEntityId sha = n.entityId)
    (hspan : recordSpan r = rowSpan n) :
    Timed sha ⟨⟨s', carrier ++ [r]⟩, log ++ [.began n.entityId (rowSpan n).since]⟩ := by
  obtain ⟨hrows, -, -, hfresh⟩ := Store.insertRow_eq_some hins
  have hnone : s.span? n.entityId = none := span?_eq_none_iff.mpr hfresh
  have hself : rowSpan n = ⟨(rowSpan n).since, none⟩ := congrArg (Span.mk _) hopen
  constructor
  · intro m hm
    have hm' : m ∈ s.rows ++ [n] := hrows ▸ hm
    rcases List.mem_append.mp hm' with hold | hnew
    · exact h.rows m hold
    · rw [List.mem_singleton.mp hnew]
      exact hn
  · exact records_append h.records hr
  · have hcarried : carrierSpan? sha carrier = s.span? := h.carried
    have hmiss : carrierSpan? sha carrier (r.resolveEntityId sha) = none := by
      rw [hcarried, hkey, hnone]
    show carrierSpan? sha (carrier ++ [r]) = s'.span?
    rw [carrierSpan?_begin hmiss, span?_insertRow hins, hcarried, hkey, hspan]
  · show Tells _ s'.span?
    rw [span?_insertRow hins, hself]
    exact Tells.begin h.told hnone (rowSpan n).since

/-- A further record of an entry that neither moves its start nor names another end. -/
theorem Timed.again (h : Timed sha ⟨⟨s, carrier⟩, log⟩) {row : Note} (r : NoteRecord)
    (hrow : row ∈ s.rows) (hr : r.schemaVersion = 1 ∧ r.ContentKeyed sha)
    (hkey : r.resolveEntityId sha = row.entityId)
    (hkeeps : CarrierKeepsStart sha carrier row.entityId r.validAt r.createdAt)
    (hend : r.invalidAt = none ∨ r.invalidAt = row.invalidAt) :
    Timed sha ⟨⟨s, carrier ++ [r]⟩, log⟩ where
  rows := h.rows
  records := records_append h.records hr
  carried := by
    have hcarried : carrierSpan? sha carrier = s.span? := h.carried
    have hspan : carrierSpan? sha carrier (r.resolveEntityId sha) = some (rowSpan row) := by
      rw [hcarried, hkey, span?_of_mem hrow]
    rw [← hkey] at hkeeps
    exact (carrierSpan?_again hspan hkeeps hend).trans hcarried
  told := h.told

/-- Superseding an active row and recording the end. -/
theorem Timed.finish (h : Timed sha ⟨⟨s, carrier⟩, log⟩) {old : Note} (u : NoteRecord)
    (hold : old ∈ s.rows) (hactive : old.status = "active")
    (hu : u.schemaVersion = 1 ∧ u.ContentKeyed sha) (hkey : u.resolveEntityId sha = old.entityId)
    (hkeeps : CarrierKeepsStart sha carrier old.entityId u.validAt u.createdAt) (newId : NoteId)
    {now : Int} (hend : u.invalidAt = some now) :
    Timed sha ⟨⟨s.edit (supersedeEdit newId now) (isActiveRow old.id), carrier ++ [u]⟩,
      log ++ [.ended old.entityId now]⟩ := by
  have hopen : old.invalidAt = none := (h.rows old hold).open_of_active hactive
  have hspans := @span?_supersede s old hold hactive hopen newId now
  have hself : s.span? old.entityId = some ⟨(rowSpan old).since, none⟩ := by
    rw [span?_of_mem hold]
    exact congrArg some (congrArg (Span.mk _) hopen)
  constructor
  · refine RowsOpen.edit h.rows _ _ fun n _ _ hstatus => ?_
    have harchived : ((supersedeEdit newId now).apply n).status = "archived" := rfl
    rw [harchived] at hstatus
    exact absurd hstatus (by decide)
  · exact records_append h.records hu
  -- the record ends the span where the row does, and may not move its start
  · have hcarried : carrierSpan? sha carrier = s.span? := h.carried
    have hspan : carrierSpan? sha carrier (u.resolveEntityId sha) =
        some ⟨(rowSpan old).since, none⟩ := by
      rw [hcarried, hkey, hself]
    rw [← hkey] at hkeeps
    show carrierSpan? sha (carrier ++ [u]) =
      (s.edit (supersedeEdit newId now) (isActiveRow old.id)).span?
    rw [carrierSpan?_further hspan hkeeps, hspans, hcarried, hkey, hend]
    rfl
  · show Tells _ (s.edit (supersedeEdit newId now) (isActiveRow old.id)).span?
    rw [hspans]
    exact Tells.finish h.told hself now

end Effects

/-! ## What each operation does to it -/

section Operations

variable {env : StoreEnv} {w : WriteThrough} {log : List Event}
variable {w' : WriteThrough}

/-- Inserting or recovering a row, and its record. -/
theorem Timed.insertOrRecover (h : Timed env.sha ⟨w, log⟩) {uuid id : NoteId} {clocks : Clocks}
    {args : AddArgs} {input : RowInput} {targets : LinkTargets} {tags linkedFiles : List String}
    {created : Bool} {s : Store} {id' : NoteId}
    (hins : w.store.insertOrRecover env (freshRow env uuid clocks.createdAt input) tags linkedFiles
      = some (id, created, s))
    (hinput : input.kind = args.kind ∧ input.title = args.title ∧ input.body = args.body ∧
      input.validAt = args.validAt) (halike : StartsAlike env.sha w.carrier clocks args) :
    Timed env.sha ⟨⟨s, w.carrier ++ [carriedRecord env.sha clocks.record id' args targets]⟩,
      log ++ beginnings env w.store clocks args⟩ := by
  obtain ⟨hkind, htitle, hbody, hvalid⟩ := hinput
  have hent : (freshRow env uuid clocks.createdAt input).entityId = args.entityId env.sha := by
    show entityId env.sha input.kind input.title input.body = _
    rw [hkind, htitle, hbody]
    rfl
  have hattach : ∀ n, rowSpan ((attachEdit env tags linkedFiles).apply n) = rowSpan n :=
    fun _ => rfl
  rcases Store.insertOrRecover_cases hins with
    ⟨-, -, s₁, hrow, rfl⟩ | ⟨-, row, hrow, hrowent, -, rfl⟩
  -- a new entry: row and record begin at one time
  · have hfresh : (freshRow env uuid clocks.createdAt input).entityId ∉
        w.store.rows.map Note.entityId := (Store.insertRow_eq_some hrow).2.2.2
    have hnone : w.store.rowForEntity? (args.entityId env.sha) = none := by
      rw [← hent]
      exact Option.map_eq_none_iff.mp (span?_eq_none_iff.mpr hfresh)
    have hfold : foldOf env.sha w.carrier (args.entityId env.sha) = none := by
      have hcarried : carrierSpan? env.sha w.carrier = w.store.span? := h.carried
      refine Option.map_eq_none_iff.mp ((congrFun hcarried _).trans ?_)
      rw [Store.span?, hnone, Option.map_none]
    unfold StartsAlike at halike
    rw [hfold] at halike
    have hstart : args.validAt.getD clocks.record.nowSecs = args.validAt.getD clocks.createdAt := by
      cases hv : args.validAt with
      | none => exact halike hv
      | some v => rfl
    have hspan : recordSpan (carriedRecord env.sha clocks.record id' args targets) =
        rowSpan (freshRow env uuid clocks.createdAt input) := by
      show (⟨args.validAt.getD clocks.record.nowSecs, none⟩ : Span) =
        ⟨input.validAt.getD clocks.createdAt, none⟩
      rw [hvalid, hstart]
    have hbegin := Timed.begin h (carriedRecord env.sha clocks.record id' args targets) hrow
      ⟨rfl, fun _ => rfl⟩ rfl ⟨rfl, rfl⟩ hent.symm hspan
    have hlog : beginnings env w.store clocks args =
        [.began (freshRow env uuid clocks.createdAt input).entityId
          (rowSpan (freshRow env uuid clocks.createdAt input)).since] := by
      rw [beginnings, hnone, hent]
      show _ = [Event.began (args.entityId env.sha) (input.validAt.getD clocks.createdAt)]
      rw [hvalid]
      rfl
    rw [hlog]
    exact hbegin.edit _ _ hattach fun _ => rfl
  -- the entry is there: its row stays, and the record may not move its start
  · have hsome : (w.store.rowForEntity? (args.entityId env.sha)).isSome = true := by
      rw [← hent, ← hrowent, Store.rowForEntity?_eq_some_iff.mpr ⟨hrow, rfl⟩]
      rfl
    have hkeeps : CarrierKeepsStart env.sha w.carrier row.entityId args.validAt
        clocks.record.nowSecs := by
      intro f hf
      rw [hrowent, hent] at hf
      unfold StartsAlike at halike
      rw [hf] at halike
      exact halike
    have hagain := Timed.again h (carriedRecord env.sha clocks.record id' args targets) hrow
      ⟨rfl, rfl⟩ (hrowent.trans hent).symm hkeeps (.inl rfl)
    rw [beginnings, if_pos hsome, List.append_nil]
    exact hagain.edit _ _ hattach fun _ => rfl

theorem Timed.origin {s₀ s : Store} {carrier : List NoteRecord}
    (h : Timed env.sha ⟨⟨s₀, carrier⟩, log⟩) {id : NoteId}
    (horigin : s = s₀ ∨ ∃ origin, s = s₀.setOrigin id origin) :
    Timed env.sha ⟨⟨s, carrier⟩, log⟩ := by
  rcases horigin with rfl | ⟨origin, rfl⟩
  · exact h
  · exact h.edit _ _ (fun _ => rfl) fun _ => rfl

theorem Timed.addEdges {s : Store} {carrier : List NoteRecord}
    (h : Timed env.sha ⟨⟨s, carrier⟩, log⟩) (id : NoteId) (args : AddArgs) :
    Timed env.sha ⟨⟨Memory.addEdges s id args, carrier⟩, log⟩ := by
  unfold Memory.addEdges
  cases args.relatesTo <;> cases args.contradicts
  · exact h
  · exact h.insertEdge _
  · exact h.insertEdge _
  · exact (h.insertEdge _).insertEdge _

/-- An add. -/
theorem Timed.memoryAdd (h : Timed env.sha ⟨w, log⟩) {uuid : NoteId} {clocks : Clocks}
    {args : AddArgs} (hadd : memoryAdd env w uuid clocks args = some w')
    (hkeeps : KeepsWindows env w (.command (.add uuid clocks args))) :
    Timed env.sha ⟨w', log ++ (beginnings env w.store clocks args ++
      replacements env w.store clocks args)⟩ := by
  obtain ⟨halike, hreplaced⟩ := hkeeps (hadd ▸ rfl)
  obtain ⟨targets, htargets, hrest⟩ := Option.bind_eq_some_iff.mp hadd
  obtain ⟨⟨id, created, s'⟩, hstore, rfl⟩ := Option.map_eq_some_iff.mp hrest
  obtain ⟨s₀, hadded, horigin⟩ := Store.add_cases hstore
  rw [← List.append_assoc]
  rcases resolveLinkTargets_superseded htargets with ⟨hnone, hsup⟩ | ⟨old, hold, hsome, hact, hsup⟩
  · rw [hnone] at hadded
    have hins := @Timed.insertOrRecover _ _ _ h _ _ _ args _ targets _ _ _ _ id hadded
      ⟨rfl, rfl, rfl, rfl⟩ halike
    have hlog : replacements env w.store clocks args = [] := by
      rw [replacements, hnone]
      rfl
    rw [hlog, List.append_nil]
    simp only [hsup, Option.toList_none, List.map_nil, List.append_nil]
    exact (hins.origin horigin).addEdges id args
  · rw [hsome] at hadded
    obtain ⟨s₁, hrow, hcase⟩ := Store.addNoteSuperseding_cases hadded
    have hget : w.store.get old.id = some (rowToNote old) :=
      Store.get_eq_some_iff.mpr ⟨old, hold, rfl, rfl⟩
    have hbound : args.supersedes.bind w.store.get = some (rowToNote old) := by
      rw [hsome, Option.bind_some, hget]
    obtain ⟨hne, hclock, hstart⟩ := hreplaced (rowToNote old) hbound
    have hins := @Timed.insertOrRecover _ _ _ h _ _ _ args _ targets _ _ _ _ id hrow
      ⟨rfl, rfl, rfl, rfl⟩ halike
    have holdent : w.store.entityOf old.id = some old.entityId :=
      Store.entityOf_eq_some_iff.mpr ⟨old, hold, rfl, rfl⟩
    have hlog : replacements env w.store clocks args = [.ended old.entityId clocks.unixepoch] := by
      have hfilter : [rowToNote old].filter (fun n => n.entityId ≠ args.entityId env.sha) =
          [rowToNote old] := List.filter_cons_of_pos (decide_eq_true hne)
      rw [replacements, hbound, Option.toList_some, hfilter]
      rfl
    rcases hcase with ⟨hid, -⟩ | ⟨-, hactive, rfl⟩
    · -- the row reused would be the one superseded, and the contents are different
      have hself := Store.entityOf_insertOrRecover_self hrow
      rw [hid, Store.entityOf_insertOrRecover hrow holdent, Option.some_inj] at hself
      exact absurd hself hne
    · obtain ⟨old₁, hold₁, hid₁, hact₁⟩ := Store.hasActive_iff.mp hactive
      have hent₁ : old₁.entityId = old.entityId := by
        have hfound := Store.entityOf_eq_some_iff.mpr ⟨old₁, hold₁, hid₁, rfl⟩
        rw [Store.entityOf_insertOrRecover hrow holdent, Option.some_inj] at hfound
        exact hfound.symm
      have hopen : old.invalidAt = none := (h.rows old hold).open_of_active hact
      -- the record of the new entry is in another group
      have hother : (carriedRecord env.sha clocks.record id args targets).resolveEntityId env.sha ≠
          old.entityId := fun heq => hne heq.symm
      have hkeepsOld : CarrierKeepsStart env.sha
          (w.carrier ++ [carriedRecord env.sha clocks.record id args targets]) old₁.entityId
          old.validAt clocks.update.nowSecs := by
        intro f hf
        rw [hent₁, foldOf, groupOf_append_of_ne hother] at hf
        exact hstart f hf
      have hend : old.invalidAt.or (some clocks.invalidAt) = some clocks.unixepoch := by
        rw [hopen, hclock, Option.none_or]
      have hfinish := hins.finish (stateUpdateRecord env.sha clocks.update (rowToNote old)
        "archived" ((rowToNote old).invalidAt.or (some clocks.invalidAt))
        (some (args.entityId env.sha))) hold₁ hact₁ ⟨rfl, rfl⟩
        ((h.rows old hold).keyed.trans hent₁.symm) hkeepsOld id hend
      rw [hlog, ← hent₁]
      rw [hid₁] at hfinish
      simp only [hsup, Option.toList_some, List.map_cons, List.map_nil]
      exact (((hfinish.insertEdge _).origin horigin).addEdges id args)

/-- A supersede. -/
theorem Timed.memorySupersede (h : Timed env.sha ⟨w, log⟩) {clocks : Clocks} {oldId newId : NoteId}
    (hcmd : memorySupersede env w clocks oldId newId = some w')
    (hkeeps : KeepsWindows env w (.command (.supersede clocks oldId newId))) :
    Timed env.sha ⟨w', log ++ (w.store.get oldId).toList.map
      fun n => .ended n.entityId clocks.unixepoch⟩ := by
  have hstart := hkeeps (hcmd ▸ rfl)
  obtain ⟨old, hold, new, -, rfl, rfl, -, hact, rfl⟩ := memorySupersede_cases hcmd
  have hget : w.store.get old.id = some (rowToNote old) :=
    Store.get_eq_some_iff.mpr ⟨old, hold, rfl, rfl⟩
  have hopen : old.invalidAt = none := (h.rows old hold).open_of_active hact
  have hend : (old.invalidAt.or (some clocks.unixepoch)).or (some clocks.invalidAt) =
      some clocks.unixepoch := by
    rw [hopen, Option.none_or, Option.some_or]
  rw [hget, Option.toList_some, List.map_singleton]
  exact (h.finish (stateUpdateRecord env.sha clocks.update
    (rowToNote ((supersedeEdit new.id clocks.unixepoch).apply old)) "archived"
    ((old.invalidAt.or (some clocks.unixepoch)).or (some clocks.invalidAt))
    (some (noteEntityId env.sha (rowToNote new)))) hold hact ⟨rfl, rfl⟩
    (h.rows old hold).keyed (hstart (rowToNote old) hget) new.id hend).insertEdge _

theorem Timed.memoryAnchor (h : Timed env.sha ⟨w, log⟩) {clock : Clock} {id : NoteId}
    {patchId sourceRef : Option String}
    (hcmd : memoryAnchor env w clock id patchId sourceRef = some w')
    (hkeeps : KeepsWindows env w (.anchor clock id patchId sourceRef)) :
    Timed env.sha ⟨w', log⟩ := by
  obtain ⟨note, hnote, rfl⟩ := Option.map_eq_some_iff.mp hcmd
  have hstart := hkeeps note hnote
  obtain ⟨row, hrow, rfl, rfl⟩ := Store.get_eq_some_iff.mp hnote
  have hagain := Timed.again h (anchorRecord env.sha clock (rowToNote row) patchId) hrow
    ⟨rfl, rfl⟩ (h.rows row hrow).keyed hstart (.inr rfl)
  cases sourceRef with
  | none => exact hagain
  | some commit => exact hagain.edit _ _ (fun _ => rfl) fun _ => rfl

theorem Timed.record (h : Timed env.sha ⟨w, log⟩) {op : Operation} (hkeeps : KeepsWindows env w op) :
    Timed env.sha (Memory.record env ⟨w, log⟩ op) := by
  cases op with
  | command c =>
    cases c with
    | add uuid clocks args =>
      simp only [Memory.record, perform, Memory.step, events]
      cases hadd : Memory.memoryAdd env w uuid clocks args with
      | none => simpa using h
      | some w' => exact h.memoryAdd hadd hkeeps
    | archive clocks id =>
      -- an archive of an active row is ruled out: it ends no span
      have hnone : Memory.memoryArchive env w clocks id = none := by
        cases hget : w.store.get id with
        | none => rw [Memory.memoryArchive, hget, Option.bind_none]
        | some note =>
          obtain ⟨row, hrow, rfl, rfl⟩ := Store.get_eq_some_iff.mp hget
          have hinactive : w.store.hasActive row.id = false := hkeeps
          rw [Memory.memoryArchive, hget, Option.bind_some]
          simp only [rowToNote, Store.archive, hinactive, Bool.false_eq_true, if_false]
      simp only [Memory.record, perform, Memory.step, events, hnone]
      simpa using h
    | supersede clocks oldId newId =>
      simp only [Memory.record, perform, Memory.step, events]
      cases hcmd : Memory.memorySupersede env w clocks oldId newId with
      | none => simpa using h
      | some w' => exact h.memorySupersede hcmd hkeeps
  | anchor clock id patchId sourceRef =>
    simp only [Memory.record, perform, events, List.append_nil]
    cases hcmd : Memory.memoryAnchor env w clock id patchId sourceRef with
    | none => exact h
    | some w' => exact h.memoryAnchor hcmd hkeeps

end Operations

/-! ## Histories -/

/-- In every history whose operations move both windows alike, both listings are exact at every
    instant after every operation. -/
theorem listsPointInTime_of_keepsWindows (env : StoreEnv) {operations : List Operation}
    (h : Runs.EachStep (record env) (fun h => KeepsWindows env h.machine) History.fresh operations) :
    Runs.EachState (record env) (ListsPointInTime env) History.fresh operations := by
  have htimed : Runs.EachState (record env) (Timed env.sha) History.fresh operations :=
    Runs.eachState_of_inv (fun _ _ ht hkeeps => ht.record hkeeps) (Timed.fresh env.sha) h
  exact Runs.EachState.imp _ htimed fun _ ht => ht.listsPointInTime

/-- A store that files content under itself. -/
def textEnv : StoreEnv := ⟨fun text => text, some, some⟩

/-- An entry, one that supersedes it a minute later, and an anchor of the first. -/
theorem listsPointInTime_of_supersede :
    Runs.EachState (record textEnv) (ListsPointInTime textEnv) History.fresh
      [.command (.add ⟨"0190a1b2"⟩ (clocksAt 1700000000) axumArgs),
       .command (.add ⟨"0190a1b3"⟩ (clocksAt 1700000060)
         { axumArgs with body := "use hyper", supersedes := some ⟨"0190a1b2"⟩ }),
       .anchor ⟨1700000070, 1700000070000⟩ ⟨"0190a1b2"⟩ none (some "c1")] :=
  listsPointInTime_of_keepsWindows textEnv (by decide +kernel)

/-- An archived entry is still listed at an instant after the archive. -/
theorem not_listsPointInTime_of_archive :
    ¬ Runs.EachState (record axumEnv) (ListsPointInTime axumEnv) History.fresh
      [.command (.add ⟨"0190a1b2"⟩ (clocksAt 1700000000) axumArgs),
       .command (.archive (clocksAt 1700000060) ⟨"0190a1b2"⟩)] := by
  intro h
  have hrows := (Runs.EachState.last _ h).rows 20 false 1700000100
  have hlisted : ∃ n ∈ (Runs.run (record axumEnv) History.fresh
      [.command (.add ⟨"0190a1b2"⟩ (clocksAt 1700000000) axumArgs),
       .command (.archive (clocksAt 1700000060) ⟨"0190a1b2"⟩)]).machine.store.listFiltered none 20
        false (some 1700000100), n.entityId = axumEnv.sha "" := by decide +kernel
  have hended : Event.ended (axumEnv.sha "") 1700000060 ∈ (Runs.run (record axumEnv) History.fresh
      [.command (.add ⟨"0190a1b2"⟩ (clocksAt 1700000000) axumArgs),
       .command (.archive (clocksAt 1700000060) ⟨"0190a1b2"⟩)]).log := by decide +kernel
  obtain ⟨n, hn, hent⟩ := hlisted
  have hlive := hrows.sound n hn
  rw [hent] at hlive
  exact absurd (hlive.2 _ hended) (by decide)

end Memory
end Inkentry
