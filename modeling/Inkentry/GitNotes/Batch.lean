/-
  Inkentry.GitNotes.Batch

  A batch of records put on HEAD's note in one write, without those whose
  entity is on the ref already.  The ref is read once, before the write.

  Two records of one entity in the batch are both written, if the entity is new;
  else a batch writes every entity once (`writesOnce_iff`).
-/

import Inkentry.GitNotes.Body
import Inkentry.GitNotes.FoldSpec
import Inkentry.Lib.JoinedText

namespace Inkentry
namespace GitNotes

open TextLines Utf8

/-! ## The ref -/

/-- The notes ref as HEAD sees it: the reachable commits, newest first, and the bodies of their
    notes. -/
structure Carrier where
  history : List String
  nodup : history.Nodup
  bodies : String → Option (List UInt8)

/-- Everything that is read of the commits, unless one of them cannot be read. -/
def readAll {ν ρ : Type*} (readAt : String → Except ν (List ρ)) : List String → Except ν (List ρ)
  | [] => .ok []
  | commit :: commits =>
    (readAt commit).bind fun records => (readAll readAt commits).map (records ++ ·)

variable (readJson : List Char → Option NoteRecord) (sha : String → String)

/-- The records of the note on a commit; a commit without a note has none. -/
def Carrier.recordsAt (c : Carrier) (commit : String) : Except Nat (List NoteRecord) :=
  parseRecords readJson (lossy ((c.bodies commit).getD []))

def Carrier.read (c : Carrier) : Except Nat (List NoteRecord) :=
  readAll (c.recordsAt readJson) c.history

def Carrier.foldedRecords (c : Carrier) : Except Nat (List NoteRecord) :=
  (c.read readJson).map (foldRecords sha)

/-- The entities on the ref. -/
def Carrier.carried (c : Carrier) : Except Nat (List String) :=
  (c.foldedRecords readJson sha).map fun records => records.map (NoteRecord.resolveEntityId sha)

/-! ## The write -/

inductive AppendError
  /-- A note on the ref has a record of this schema version, which is too new. -/
  | unreadable (found : Nat)
  | noHead
  deriving DecidableEq

/-- What a batch did. -/
structure BatchAppendOutcome where
  written : Nat
  alreadyCarried : Nat
  deriving DecidableEq

/-- The body that a batch writes, for the body that is there. -/
def appendBatch (existing : Option (List UInt8)) (records : List NoteRecord) : List UInt8 :=
  encode (combined (existing.map lossy) (JoinedText.join '\n' (records.map recordLine)))

def Carrier.setBody (c : Carrier) (commit : String) (body : List UInt8) : Carrier :=
  { c with bodies := Function.update c.bodies commit (some body) }

/-- The records whose entity is not among those. -/
def unseen (carried : List String) (records : List NoteRecord) : List NoteRecord :=
  records.filter fun r => r.resolveEntityId sha ∉ carried

def Carrier.appendNew (c : Carrier) (records : List NoteRecord) :
    Except AppendError (BatchAppendOutcome × Carrier) :=
  match c.carried readJson sha with
  | .error found => .error (.unreadable found)
  | .ok carried =>
    let fresh := unseen sha carried records
    if fresh.isEmpty then .ok (⟨0, records.length - fresh.length⟩, c)
    else match c.history.head? with
      | none => .error .noHead
      | some head =>
        .ok (⟨fresh.length, records.length - fresh.length⟩,
          c.setBody head (appendBatch (c.bodies head) fresh))

/-! ## The body of a batch -/

variable {readJson sha}
variable {records : List NoteRecord}
variable {before : List NoteRecord} {fresh : List NoteRecord}

theorem trim_append_singleton_ne_nil {text : List Char} {c : Char} (hc : isWhitespace c = false) :
    trim (text ++ [c]) ≠ [] := by
  rw [Ne, trim_eq_nil_iff]
  intro h
  exact absurd (h c (List.mem_append_right _ (List.mem_singleton_self c))) (by simp [hc])

theorem trimEndLf_append_singleton {text : List Char} {c : Char} (hc : c ≠ '\n') :
    trimEndLf (text ++ [c]) = text ++ [c] :=
  List.rdropWhile_concat_neg _ _ _ (by simpa using hc)

theorem recordLine_eq (r : NoteRecord) : ∃ front, recordLine r = front ++ ['\x7d'] :=
  ⟨_, (List.cons_append ..).symm⟩

theorem combined_eq (existing : Option (List Char)) (r : NoteRecord) :
    ∃ front, combined existing (recordLine r) = front ++ ['\x7d'] := by
  obtain ⟨front, hline⟩ := recordLine_eq r
  rw [hline]
  cases existing with
  | none => exact ⟨front, rfl⟩
  | some body =>
    show ∃ front', (if trim body ≠ [] then trimEndLf body ++ '\n' :: (front ++ ['\x7d'])
      else front ++ ['\x7d']) = front' ++ ['\x7d']
    split
    · exact ⟨trimEndLf body ++ '\n' :: front, by rw [List.append_assoc, List.cons_append]⟩
    · exact ⟨front, rfl⟩

/-- A line after a line, put after a body, is the second put after the first. -/
theorem combined_append {existing : Option (List Char)} {text front : List Char}
    (h : combined existing text = front ++ ['\x7d']) (line : List Char) :
    combined existing (text ++ '\n' :: line) = combined (some (combined existing text)) line := by
  have hright : combined (some (combined existing text)) line
      = combined existing text ++ '\n' :: line := by
    show (if trim (combined existing text) ≠ []
      then trimEndLf (combined existing text) ++ '\n' :: line else line) = _
    rw [h, if_pos (trim_append_singleton_ne_nil (by decide)),
      trimEndLf_append_singleton (by decide)]
  rw [hright]
  cases existing with
  | none => rfl
  | some body =>
    show (if trim body ≠ [] then trimEndLf body ++ '\n' :: (text ++ '\n' :: line)
      else text ++ '\n' :: line) = (if trim body ≠ [] then trimEndLf body ++ '\n' :: text
      else text) ++ '\n' :: line
    split
    · rw [List.append_assoc, List.cons_append]
    · rfl

/-- The records of a batch are visible lines, one each. -/
theorem visibleLines_batch (existing : Option (List Char)) (hne : records ≠ []) :
    visibleLines (combined existing (JoinedText.join '\n' (records.map recordLine)))
        = visibleLines (existing.getD []) ++ records.map recordLine
      ∧ ∃ front, combined existing (JoinedText.join '\n' (records.map recordLine))
          = front ++ ['\x7d'] := by
  induction records using List.reverseRecOn with
  | nil => exact absurd rfl hne
  | append_singleton records r ih =>
    by_cases hnil : records = []
    · subst hnil
      exact ⟨visibleLines_combined existing (lf_not_mem_recordLine r) (trim_recordLine_ne_nil r),
        combined_eq existing r⟩
    · obtain ⟨hlines, front, hfront⟩ := ih hnil
      have hmap : records.map recordLine ≠ [] := fun h => hnil (List.map_eq_nil_iff.mp h)
      rw [List.map_append, List.map_singleton, JoinedText.join_concat hmap, combined_append hfront]
      refine ⟨?_, combined_eq _ r⟩
      rw [visibleLines_combined _ (lf_not_mem_recordLine r) (trim_recordLine_ne_nil r),
        Option.getD_some, hlines, List.append_assoc]

theorem checkSchema_eq_ok_iff {records records' : List NoteRecord} :
    checkSchema records = .ok records' ↔ records' = records ∧ ∀ r ∈ records, r.schemaVersion ≤ 1 := by
  induction records generalizing records' with
  | nil =>
    refine ⟨fun h => ⟨(Except.ok.inj h).symm, by simp⟩, ?_⟩
    rintro ⟨rfl, -⟩
    rfl
  | cons r records ih =>
    rw [checkSchema, List.forall_mem_cons]
    split
    case isTrue hnew => exact iff_of_false (by simp) (fun h => by omega)
    case isFalse hold =>
      cases hrest : checkSchema records with
      | error found =>
        refine iff_of_false (by simp [Except.map]) fun h => ?_
        have hok := ih.mpr ⟨rfl, h.2.2⟩
        rw [hrest] at hok
        exact absurd hok (by simp)
      | ok rest =>
        obtain ⟨rfl, hall⟩ := ih.mp hrest
        constructor
        · intro h
          exact ⟨(Except.ok.inj h).symm, Nat.le_of_not_lt hold, hall⟩
        · rintro ⟨rfl, -⟩
          rfl

theorem filterMap_recordLine (hread : ∀ r ∈ records, readJson (recordLine r) = some r) :
    (records.map recordLine).filterMap (parseInkentryLine readJson) = records := by
  induction records with
  | nil => rfl
  | cons r records ih =>
    rw [List.forall_mem_cons] at hread
    have hcons : recordLine r ≠ [] := List.cons_ne_nil _ _
    have hline : parseInkentryLine readJson (recordLine r) = some r := by
      simp only [parseInkentryLine, trim_recordLine, if_neg hcons, hread.1]
    rw [List.map_cons, List.filterMap_cons_some hline, ih hread.2]

/-- The records of the body that a batch writes. -/
theorem parseRecords_appendBatch_iff {existing : Option (List UInt8)} (hne : fresh ≠ [])
    (hread : ∀ r ∈ fresh, readJson (recordLine r) = some r)
    (hbefore : parseRecords readJson (lossy (existing.getD [])) = .ok before)
    {after : List NoteRecord} :
    parseRecords readJson (lossy (appendBatch existing fresh)) = .ok after
      ↔ after = before ++ fresh ∧ ∀ r ∈ fresh, r.schemaVersion ≤ 1 := by
  rw [parseRecords_eq] at hbefore ⊢
  obtain ⟨rfl, hold⟩ := checkSchema_eq_ok_iff.mp hbefore
  rw [appendBatch, lossy_encode, (visibleLines_batch _ hne).1, lossy_getD, List.filterMap_append,
    filterMap_recordLine hread, checkSchema_eq_ok_iff, List.forall_mem_append]
  exact and_congr_right fun _ => and_iff_right hold

/-! ## The ref after a batch -/

section Ref

variable {ν ρ : Type*} {readAt readAt' : String → Except ν (List ρ)}
variable {commits : List String}

theorem readAll_congr (h : ∀ c ∈ commits, readAt' c = readAt c) :
    readAll readAt' commits = readAll readAt commits := by
  induction commits with
  | nil => rfl
  | cons commit commits ih =>
    rw [List.forall_mem_cons] at h
    rw [readAll, readAll, h.1, ih h.2]

/-- All of a list of commits is read exactly when the first of them and the others are. -/
theorem readAll_cons_eq_ok_iff {commit : String} {records : List ρ} :
    readAll readAt (commit :: commits) = .ok records
      ↔ ∃ front back, readAt commit = .ok front ∧ readAll readAt commits = .ok back
          ∧ records = front ++ back := by
  rw [readAll]
  cases readAt commit with
  | error e => exact iff_of_false (by simp [Except.bind]) (by simp)
  | ok front =>
    cases readAll readAt commits with
    | error e => exact iff_of_false (by simp [Except.bind, Except.map]) (by simp)
    | ok back =>
      constructor
      · intro h
        exact ⟨front, back, rfl, rfl, (Except.ok.inj h).symm⟩
      · rintro ⟨front', back', hfront, hback, rfl⟩
        rw [Except.ok.inj hfront, Except.ok.inj hback]
        rfl

end Ref

variable {c : Carrier}

theorem Carrier.carried_eq_ok_iff {carried : List String} :
    c.carried readJson sha = .ok carried
      ↔ ∃ records, c.read readJson = .ok records
          ∧ carried = (groupRecords sha records).order := by
  unfold Carrier.carried Carrier.foldedRecords
  cases c.read readJson with
  | error found => exact iff_of_false (by simp [Except.map]) (by simp)
  | ok records =>
    constructor
    · intro h
      refine ⟨records, rfl, ?_⟩
      rw [← foldRecords_map_resolveEntityId]
      exact (Except.ok.inj h).symm
    · rintro ⟨records', hrecords, rfl⟩
      rw [← Except.ok.inj hrecords, ← foldRecords_map_resolveEntityId]
      rfl

theorem mem_order {key : String} :
    key ∈ (groupRecords sha records).order
      ↔ key ∈ records.map (NoteRecord.resolveEntityId sha) := by
  rw [(groupRecords_order sha records).2, List.mem_map]
  constructor
  · intro hne
    obtain ⟨r, hr⟩ := List.exists_mem_of_ne_nil _ hne
    exact ⟨r, mem_groupOf.mp hr⟩
  · rintro ⟨r, hr, hkey⟩
    exact List.ne_nil_of_mem (mem_groupOf.mpr ⟨hr, hkey⟩)

/-- What is read of the ref after a batch is written to HEAD's note. -/
theorem Carrier.exists_read_setBody {head : String} {commits : List String}
    (hhistory : c.history = head :: commits) (hne : fresh ≠ [])
    (hread : ∀ r ∈ fresh, readJson (recordLine r) = some r)
    (hbefore : c.read readJson = .ok before) :
    ∃ front back, before = front ++ back
      ∧ ∀ after, (c.setBody head (appendBatch (c.bodies head) fresh)).read readJson = .ok after
          ↔ after = front ++ fresh ++ back ∧ ∀ r ∈ fresh, r.schemaVersion ≤ 1 := by
  have hnodup := c.nodup
  rw [hhistory, List.nodup_cons] at hnodup
  -- a commit stands in the history once, so only the records of the head change
  have hothers : ∀ commit ∈ commits,
      (c.setBody head (appendBatch (c.bodies head) fresh)).recordsAt readJson commit
        = c.recordsAt readJson commit := by
    intro commit hcommit
    have hne : commit ≠ head := fun h => hnodup.1 (h ▸ hcommit)
    simp only [recordsAt, setBody, Function.update_of_ne hne]
  have hhead : (c.setBody head (appendBatch (c.bodies head) fresh)).recordsAt readJson head
      = parseRecords readJson (lossy (appendBatch (c.bodies head) fresh)) := by
    simp only [recordsAt, setBody, Function.update_self, Option.getD_some]
  rw [read, hhistory] at hbefore
  obtain ⟨front, back, hfront, hback, rfl⟩ := readAll_cons_eq_ok_iff.mp hbefore
  refine ⟨front, back, rfl, fun after => ?_⟩
  show readAll _ c.history = _ ↔ _
  rw [hhistory, readAll_cons_eq_ok_iff, readAll_congr hothers, hhead]
  constructor
  · rintro ⟨front', back', hfront', hback', rfl⟩
    obtain ⟨rfl, hschema⟩ := (parseRecords_appendBatch_iff hne hread hfront).mp hfront'
    rw [← Except.ok.inj (hback.symm.trans hback')]
    exact ⟨rfl, hschema⟩
  · rintro ⟨rfl, hschema⟩
    exact ⟨_, back, (parseRecords_appendBatch_iff hne hread hfront).mpr ⟨rfl, hschema⟩, hback, rfl⟩

/-! ## The law -/

/-- After a call that succeeds the ref has every entity of the batch, as many records were written
    as there are entities of the batch that the ref did not have, and a second call writes none. -/
structure WritesOnce (readJson : List Char → Option NoteRecord) (sha : String → String) (c : Carrier)
    (records : List NoteRecord) (outcome : BatchAppendOutcome) (c' : Carrier) : Prop where
  contains : ∃ carried', c'.carried readJson sha = .ok carried'
    ∧ ∀ r ∈ records, r.resolveEntityId sha ∈ carried'
  written : ∀ carried, c.carried readJson sha = .ok carried → outcome.written
    = ((unseen sha carried records).map (NoteRecord.resolveEntityId sha)).dedup.length
  again : ∃ outcome', c'.appendNew readJson sha records = .ok (outcome', c') ∧ outcome'.written = 0

theorem isEmpty_unseen {carried : List String} :
    (unseen sha carried records).isEmpty = true ↔ ∀ r ∈ records, r.resolveEntityId sha ∈ carried := by
  rw [List.isEmpty_iff, unseen, List.filter_eq_nil_iff]
  simp

theorem Carrier.appendNew_of_carried {carried : List String}
    (hcarried : c.carried readJson sha = .ok carried)
    (h : ∀ r ∈ records, r.resolveEntityId sha ∈ carried) :
    c.appendNew readJson sha records = .ok (⟨0, records.length⟩, c) := by
  have hnil := isEmpty_unseen.mpr h
  simp only [appendNew, hcarried, hnil, if_pos]
  rw [List.isEmpty_iff.mp hnil]
  rfl

theorem length_dedup_eq_iff {keys : List String} : keys.length = keys.dedup.length ↔ keys.Nodup := by
  rw [← List.dedup_eq_self]
  constructor
  · intro h
    exact (List.dedup_sublist keys).eq_of_length h.symm
  · intro h
    rw [h]

/-- A batch writes every entity once exactly when no two of its records that are new are of one
    entity, and none of them is of a schema version that the reader refuses. -/
theorem writesOnce_iff {c : Carrier} {records : List NoteRecord} {outcome : BatchAppendOutcome}
    {c' : Carrier} (hread : ∀ r ∈ records, readJson (recordLine r) = some r)
    (hcall : c.appendNew readJson sha records = .ok (outcome, c')) :
    WritesOnce readJson sha c records outcome c'
      ↔ ∀ carried, c.carried readJson sha = .ok carried →
          ((unseen sha carried records).map (NoteRecord.resolveEntityId sha)).Nodup
          ∧ ∀ r ∈ unseen sha carried records, r.schemaVersion ≤ 1 := by
  cases hcarried : c.carried readJson sha with
  | error found =>
    simp only [Carrier.appendNew, hcarried] at hcall
    exact absurd hcall (by simp)
  | ok carried =>
    by_cases hall : ∀ r ∈ records, r.resolveEntityId sha ∈ carried
    -- everything is carried already: nothing is written, now or again
    · have hnil := List.isEmpty_iff.mp (isEmpty_unseen.mpr hall)
      have hsame := Carrier.appendNew_of_carried hcarried hall
      obtain ⟨rfl, rfl⟩ := Prod.mk.inj (Except.ok.inj (hcall.symm.trans hsame))
      refine iff_of_true ⟨⟨carried, hcarried, hall⟩, ?_, ⟨_, hsame, rfl⟩⟩ ?_
      · intro carried' hcarried'
        rw [← Except.ok.inj (hcarried.symm.trans hcarried'), hnil]
        rfl
      · intro carried' hcarried'
        rw [← Except.ok.inj hcarried', hnil]
        exact ⟨List.nodup_nil, by simp⟩
    · have hempty : ¬(unseen sha carried records).isEmpty = true :=
        fun h => hall (isEmpty_unseen.mp h)
      have hne : unseen sha carried records ≠ [] := fun h => hempty (List.isEmpty_iff.mpr h)
      have hfresh : ∀ r ∈ unseen sha carried records, readJson (recordLine r) = some r :=
        fun r hr => hread r (List.mem_of_mem_filter hr)
      cases hhistory : c.history with
      -- no commit to write to
      | nil =>
        simp only [Carrier.appendNew, hcarried, if_neg hempty, hhistory, List.head?_nil] at hcall
        exact absurd hcall (by simp)
      | cons head commits =>
        simp only [Carrier.appendNew, hcarried, if_neg hempty, hhistory, List.head?_cons] at hcall
        obtain ⟨rfl, rfl⟩ := Prod.mk.inj (Except.ok.inj hcall)
        obtain ⟨before, hbefore, hkeys⟩ := Carrier.carried_eq_ok_iff.mp hcarried
        obtain ⟨front, back, rfl, hafter⟩ := Carrier.exists_read_setBody hhistory hne hfresh hbefore
        -- what is appended reads back between the lines before it and those after it
        constructor
        · intro h carried' hcarried'
          obtain rfl := Except.ok.inj hcarried'
          refine ⟨length_dedup_eq_iff.mp ?_, ?_⟩
          · rw [List.length_map]
            exact h.written carried hcarried
          · obtain ⟨carried', hcarried', -⟩ := h.contains
            obtain ⟨after, hread', -⟩ := Carrier.carried_eq_ok_iff.mp hcarried'
            exact ((hafter after).mp hread').2
        · intro h
          obtain ⟨hnodup, hschema⟩ := h carried rfl
          have hcarried' : (c.setBody head (appendBatch (c.bodies head)
              (unseen sha carried records))).carried readJson sha
              = .ok (groupRecords sha (front ++ unseen sha carried records ++ back)).order :=
            Carrier.carried_eq_ok_iff.mpr ⟨_, (hafter _).mpr ⟨rfl, hschema⟩, rfl⟩
          have hcontains : ∀ r ∈ records, r.resolveEntityId sha
              ∈ (groupRecords sha (front ++ unseen sha carried records ++ back)).order := by
            intro r hr
            rw [mem_order]
            by_cases hold : r.resolveEntityId sha ∈ carried
            · rw [hkeys, mem_order, List.map_append, List.mem_append] at hold
              rw [List.map_append, List.map_append, List.mem_append, List.mem_append]
              exact hold.imp_left .inl
            · have hmem : r ∈ unseen sha carried records :=
                List.mem_filter.mpr ⟨hr, by simpa using hold⟩
              exact List.mem_map_of_mem
                (List.mem_append_left _ (List.mem_append_right _ hmem))
          refine ⟨⟨_, hcarried', hcontains⟩, ?_,
            ⟨_, Carrier.appendNew_of_carried hcarried' hcontains, rfl⟩⟩
          intro carried'' hcarried''
          rw [← Except.ok.inj (hcarried.symm.trans hcarried''), ← length_dedup_eq_iff.mpr hnodup,
            List.length_map]

/-- A repository of one commit without notes. -/
def bareCarrier : Carrier := ⟨["4fd0"], List.nodup_singleton _, fun _ => none⟩

/-- One new record. -/
theorem writesOnce_one :
    WritesOnce readCache id bareCarrier [cacheRecord] ⟨1, 0⟩
        (bareCarrier.setBody "4fd0" (appendBatch none [cacheRecord]))
      ↔ ∀ carried, bareCarrier.carried readCache id = .ok carried →
          ((unseen id carried [cacheRecord]).map (NoteRecord.resolveEntityId id)).Nodup
          ∧ ∀ r ∈ unseen id carried [cacheRecord], r.schemaVersion ≤ 1 :=
  writesOnce_iff (List.forall_mem_singleton.mpr (if_pos rfl)) rfl

/-- The same record twice: both copies are written. -/
theorem not_writesOnce_of_twice :
    bareCarrier.appendNew readCache id [cacheRecord, cacheRecord]
        = .ok (⟨2, 0⟩, bareCarrier.setBody "4fd0" (appendBatch none [cacheRecord, cacheRecord]))
      ∧ ¬WritesOnce readCache id bareCarrier [cacheRecord, cacheRecord] ⟨2, 0⟩
        (bareCarrier.setBody "4fd0" (appendBatch none [cacheRecord, cacheRecord])) := by
  refine ⟨rfl, fun h => ?_⟩
  have hwritten := h.written [] rfl
  exact absurd hwritten (by decide)

end GitNotes
end Inkentry
