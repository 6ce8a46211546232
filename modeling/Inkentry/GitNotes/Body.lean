/-
  Inkentry.GitNotes.Body

  The body of a note: one JSON record a line, between lines of other tools.  A
  write reads the body, puts the new record's line after what is there and
  writes the whole of it back.

  The reader of one line's JSON is third-party code and enters as the parameter
  `readJson`; all that is asked of it is that it reads back a record as the
  serializer writes it.
-/

import Inkentry.Lib.TextLines
import Inkentry.Lib.Utf8
import Inkentry.Record

namespace Inkentry
namespace GitNotes

open TextLines Utf8

/-! ## A record as JSON -/

/-- Items between commas. -/
def joinComma : List (List Char) → List Char
  | [] => []
  | [item] => item
  | item :: item' :: items => item ++ ',' :: joinComma (item' :: items)

def jsonArray (items : List (List Char)) : List Char := '[' :: (joinComma items ++ [']'])

def jsonText (s : String) : List Char := (jsonString s).toList

def jsonNumber (n : Int) : List Char :=
  if n < 0 then '-' :: Nat.toDigits 10 n.natAbs else Nat.toDigits 10 n.natAbs

def jsonField (field : String × List Char) : List Char := jsonText field.1 ++ ':' :: field.2

def jsonObject (fields : List (String × List Char)) : List Char :=
  '\x7b' :: (joinComma (fields.map jsonField) ++ ['\x7d'])

/-- A field that is left out when it is absent. -/
def optionalField {α : Type} (name : String) (write : α → List Char) (value : Option α) :
    List (String × List Char) :=
  (value.map fun a => (name, write a)).toList

def ActorKind.toJson : ActorKind → List Char
  | .human => jsonText "human"
  | .agent => jsonText "agent"
  | .harvest => jsonText "harvest"
  | .unknown => jsonText "unknown"

def Origin.toJson (o : Origin) : List Char :=
  jsonObject ([("actor_kind", ActorKind.toJson o.actorKind)]
    ++ optionalField "tool" jsonText o.tool ++ optionalField "model" jsonText o.model)

def CarriedEdge.toJson (e : CarriedEdge) : List Char :=
  jsonObject [("kind", jsonText e.kind), ("to_entity_id", jsonText e.toEntityId)]

/-- The fields of a record's line, in order. -/
def recordFields (r : NoteRecord) : List (String × List Char) :=
  [("schema_version", jsonNumber r.schemaVersion), ("id", jsonNumber r.id),
    ("kind", jsonText r.kind), ("title", jsonText r.title), ("body", jsonText r.body),
    ("tags", jsonArray (r.tags.map jsonText)),
    ("linked_files", jsonArray (r.linkedFiles.map jsonText)),
    ("created_at", jsonNumber r.createdAt), ("status", jsonText r.status)]
  ++ optionalField "source_ref" jsonText r.sourceRef
  ++ optionalField "valid_at" jsonNumber r.validAt
  ++ optionalField "invalid_at" jsonNumber r.invalidAt
  ++ optionalField "superseded_by" jsonNumber r.supersededBy
  ++ optionalField "remote_id" jsonText r.remoteId
  ++ optionalField "entity_id" jsonText r.entityId
  ++ optionalField "superseded_by_entity_id" jsonText r.supersededByEntityId
  ++ (if r.edges = [] then [] else [("edges", jsonArray (r.edges.map CarriedEdge.toJson))])
  ++ optionalField "origin" Origin.toJson r.origin
  ++ optionalField "op" jsonText r.op
  ++ optionalField "patch_id" jsonText r.patchId

/-- The line of a record. -/
def recordLine (r : NoteRecord) : List Char := jsonObject (recordFields r)

/-! ## Reading a body -/

/-- The record of one line; a line of another tool is none. -/
def parseInkentryLine (readJson : List Char → Option NoteRecord) (line : List Char) :
    Option NoteRecord :=
  let trimmed := trim line
  if trimmed = [] then none else readJson trimmed

/-- The records of the lines, or the schema version of the first that is too new. -/
def recordsOf (readJson : List Char → Option NoteRecord) :
    List (List Char) → Except Nat (List NoteRecord)
  | [] => .ok []
  | line :: rest =>
    match parseInkentryLine readJson line with
    | some record =>
      if record.schemaVersion > 1 then .error record.schemaVersion
      else (recordsOf readJson rest).map (record :: ·)
    | none => recordsOf readJson rest

def parseRecords (readJson : List Char → Option NoteRecord) (blob : List Char) :
    Except Nat (List NoteRecord) :=
  recordsOf readJson (lines blob)

/-! ## Appending to a body -/

/-- The body with a line put after it. -/
def combined (existing : Option (List Char)) (newLine : List Char) : List Char :=
  match existing with
  | some body => if trim body ≠ [] then trimEndLf body ++ '\n' :: newLine else newLine
  | none => newLine

/-- The body that appending a record writes, for the body that is there. -/
def appendRecord (existing : Option (List UInt8)) (r : NoteRecord) : List UInt8 :=
  encode (combined (existing.map lossy) (recordLine r))

/-! ## A record's line is one line -/

variable {items : List (List Char)}

theorem lf_not_mem_joinComma (h : ∀ item ∈ items, '\n' ∉ item) : '\n' ∉ joinComma items := by
  induction items with
  | nil => exact List.not_mem_nil
  | cons item items ih =>
    cases items with
    | nil => exact h item (List.mem_singleton_self _)
    | cons item' items =>
      show '\n' ∉ item ++ ',' :: joinComma (item' :: items)
      intro hmem
      rcases List.mem_append.mp hmem with hitem | hrest
      · exact h item List.mem_cons_self hitem
      · rcases List.mem_cons.mp hrest with hcomma | htail
        · exact absurd hcomma (by decide)
        · exact ih (fun x hx => h x (List.mem_cons_of_mem _ hx)) htail

theorem lf_not_mem_jsonArray (h : ∀ item ∈ items, '\n' ∉ item) : '\n' ∉ jsonArray items := by
  simpa [jsonArray] using lf_not_mem_joinComma h

theorem lf_not_mem_jsonText (s : String) : '\n' ∉ jsonText s := by
  have hbody : '\n' ∉ (String.join (s.toList.map jsonEscape)).toList := by
    rw [String.toList_join, List.flatMap_map]
    intro hmem
    obtain ⟨c, -, hc⟩ := List.mem_flatMap.mp hmem
    exact lf_not_mem_jsonEscape c hc
  rw [jsonText, jsonString, String.toList_append, String.toList_append]
  intro hmem
  rcases List.mem_append.mp hmem with hmem | hmem
  · rcases List.mem_append.mp hmem with hmem | hmem
    · exact absurd hmem (by decide)
    · exact hbody hmem
  · exact absurd hmem (by decide)

theorem lf_not_mem_jsonNumber (n : Int) : '\n' ∉ jsonNumber n := by
  have hdigits : '\n' ∉ Nat.toDigits 10 n.natAbs := by
    intro hmem
    exact absurd (Nat.isDigit_of_mem_toDigits (by omega) (by omega) hmem) (by decide)
  unfold jsonNumber
  split
  · simpa using hdigits
  · exact hdigits

theorem lf_not_mem_jsonObject {fields : List (String × List Char)}
    (h : ∀ field ∈ fields, '\n' ∉ field.2) : '\n' ∉ jsonObject fields := by
  have hjoin : '\n' ∉ joinComma (fields.map jsonField) := by
    refine lf_not_mem_joinComma fun item hitem => ?_
    obtain ⟨field, hfield, rfl⟩ := List.mem_map.mp hitem
    have hname := lf_not_mem_jsonText field.1
    have hvalue := h field hfield
    simp [jsonField, hname, hvalue]
  simpa [jsonObject] using hjoin

theorem lf_not_mem_optionalField {α : Type} {name : String} {write : α → List Char}
    (h : ∀ a, '\n' ∉ write a) (value : Option α) :
    ∀ field ∈ optionalField name write value, '\n' ∉ field.2 := by
  intro field hfield
  cases value with
  | none => exact absurd hfield (List.not_mem_nil)
  | some a =>
    obtain rfl := List.mem_singleton.mp hfield
    exact h a

theorem lf_not_mem_origin (o : Origin) : '\n' ∉ Origin.toJson o := by
  have hkind : '\n' ∉ ActorKind.toJson o.actorKind := by
    cases o.actorKind <;> exact lf_not_mem_jsonText _
  refine lf_not_mem_jsonObject ?_
  simp only [List.forall_mem_append, List.forall_mem_singleton]
  exact ⟨⟨hkind, lf_not_mem_optionalField lf_not_mem_jsonText _⟩,
    lf_not_mem_optionalField lf_not_mem_jsonText _⟩

theorem lf_not_mem_edge (e : CarriedEdge) : '\n' ∉ CarriedEdge.toJson e := by
  refine lf_not_mem_jsonObject ?_
  simp [lf_not_mem_jsonText]

theorem lf_not_mem_texts (texts : List String) : '\n' ∉ jsonArray (texts.map jsonText) := by
  refine lf_not_mem_jsonArray fun item hitem => ?_
  obtain ⟨s, -, rfl⟩ := List.mem_map.mp hitem
  exact lf_not_mem_jsonText s

theorem lf_not_mem_recordLine (r : NoteRecord) : '\n' ∉ recordLine r := by
  have hedges : ∀ field ∈ (if r.edges = [] then []
      else [("edges", jsonArray (r.edges.map CarriedEdge.toJson))]), '\n' ∉ field.2 := by
    split
    · exact fun _ h => absurd h List.not_mem_nil
    · rw [List.forall_mem_singleton]
      refine lf_not_mem_jsonArray fun item hitem => ?_
      obtain ⟨e, -, rfl⟩ := List.mem_map.mp hitem
      exact lf_not_mem_edge e
  have hbase : ∀ field ∈ [("schema_version", jsonNumber r.schemaVersion), ("id", jsonNumber r.id),
      ("kind", jsonText r.kind), ("title", jsonText r.title), ("body", jsonText r.body),
      ("tags", jsonArray (r.tags.map jsonText)),
      ("linked_files", jsonArray (r.linkedFiles.map jsonText)),
      ("created_at", jsonNumber r.createdAt), ("status", jsonText r.status)], '\n' ∉ field.2 := by
    simp [lf_not_mem_jsonText, lf_not_mem_jsonNumber, lf_not_mem_texts]
  refine lf_not_mem_jsonObject ?_
  unfold recordFields
  simp only [List.forall_mem_append]
  exact ⟨⟨⟨⟨⟨⟨⟨⟨⟨⟨⟨hbase, lf_not_mem_optionalField lf_not_mem_jsonText _⟩,
    lf_not_mem_optionalField lf_not_mem_jsonNumber _⟩,
    lf_not_mem_optionalField lf_not_mem_jsonNumber _⟩,
    lf_not_mem_optionalField lf_not_mem_jsonNumber _⟩,
    lf_not_mem_optionalField lf_not_mem_jsonText _⟩,
    lf_not_mem_optionalField lf_not_mem_jsonText _⟩,
    lf_not_mem_optionalField lf_not_mem_jsonText _⟩, hedges⟩,
    lf_not_mem_optionalField lf_not_mem_origin _⟩,
    lf_not_mem_optionalField lf_not_mem_jsonText _⟩,
    lf_not_mem_optionalField lf_not_mem_jsonText _⟩

theorem trim_recordLine (r : NoteRecord) : trim (recordLine r) = recordLine r :=
  trim_eq_self _ (by decide) (by decide)

/-! ## The records of a body -/

section Reading

variable (readJson : List Char → Option NoteRecord)

/-- The records, unless one of them is of a newer schema. -/
def checkSchema : List NoteRecord → Except Nat (List NoteRecord)
  | [] => .ok []
  | record :: rest =>
    if record.schemaVersion > 1 then .error record.schemaVersion
    else (checkSchema rest).map (record :: ·)

theorem recordsOf_eq (segments : List (List Char)) :
    recordsOf readJson segments = checkSchema (segments.filterMap (parseInkentryLine readJson)) := by
  induction segments with
  | nil => rfl
  | cons line segments ih =>
    rw [recordsOf]
    cases hline : parseInkentryLine readJson line with
    | none => rw [List.filterMap_cons_none hline, ih]
    | some record => rw [List.filterMap_cons_some hline, ih, checkSchema]

theorem checkSchema_concat {r : NoteRecord} (hschema : r.schemaVersion ≤ 1) (rs : List NoteRecord) :
    checkSchema (rs ++ [r]) = (checkSchema rs).map (· ++ [r]) := by
  induction rs with
  | nil =>
    show (if r.schemaVersion > 1 then _ else _ : Except Nat (List NoteRecord)) = _
    rw [if_neg (by omega)]
    rfl
  | cons record rs ih =>
    rw [List.cons_append, checkSchema, checkSchema, ih]
    split
    · rfl
    · cases checkSchema rs with
      | error found => rfl
      | ok rs => rfl

theorem parseInkentryLine_of_trim {line line' : List Char} (h : trim line = trim line') :
    parseInkentryLine readJson line = parseInkentryLine readJson line' := by
  unfold parseInkentryLine
  rw [h]

theorem parseRecords_eq (blob : List Char) :
    parseRecords readJson blob
      = checkSchema ((visibleLines blob).filterMap (parseInkentryLine readJson)) := by
  have hlines : (lines blob).filterMap (parseInkentryLine readJson)
      = (blob.splitOn '\n').filterMap (parseInkentryLine readJson) :=
    filterMap_lines (fun line => parseInkentryLine_of_trim readJson (trim_stripCr line)) rfl blob
  rw [parseRecords, recordsOf_eq, hlines, visibleLines, List.filterMap_filter]
  refine congrArg checkSchema (List.filterMap_congr fun line _ => ?_)
  by_cases hblank : trim line = []
  · simp [hblank, parseInkentryLine]
  · simp [hblank]

end Reading

/-! ## The lines of a combined body -/

theorem visibleLines_combined (existing : Option (List Char)) {newLine : List Char}
    (hlf : '\n' ∉ newLine) (hvisible : trim newLine ≠ []) :
    visibleLines (combined existing newLine) = visibleLines (existing.getD []) ++ [newLine] := by
  have hnew : visibleLines newLine = [newLine] := by
    rw [visibleLines, List.splitOn_eq_singleton hlf]
    simp [hvisible]
  cases existing with
  | none =>
    rw [combined, hnew, Option.getD_none, visibleLines_eq_nil trim_nil]
    rfl
  | some body =>
    show visibleLines (if trim body ≠ [] then trimEndLf body ++ '\n' :: newLine else newLine) = _
    by_cases hbody : trim body = []
    · rw [if_neg (by simpa using hbody), hnew, Option.getD_some, visibleLines_eq_nil hbody]
      rfl
    · rw [if_pos hbody, Option.getD_some]
      obtain ⟨n, hold, hcombined⟩ := splitOn_trimEndLf_append body hlf
      -- the line feeds that are trimmed off end empty lines
      rw [visibleLines, visibleLines, hold, hcombined, List.filter_append, List.filter_append]
      simp [hvisible]

theorem trim_recordLine_ne_nil (r : NoteRecord) : trim (recordLine r) ≠ [] := by
  rw [trim_recordLine]
  exact List.cons_ne_nil _ _

/-! ## What an append keeps -/

/-- The lines of a body that are not blank, as bytes. -/
def noteLines (body : List UInt8) : List (List UInt8) :=
  (body.splitOn 10).filter fun line => trim (lossy line) ≠ []

/-- The append adds the record to the body's records, and every line of the body that is
    not blank is still there, byte for byte. -/
structure AppendKeeps (readJson : List Char → Option NoteRecord) (existing : Option (List UInt8))
    (r : NoteRecord) : Prop where
  records : parseRecords readJson (lossy (appendRecord existing r))
    = (parseRecords readJson (lossy (existing.getD []))).map (· ++ [r])
  lines : ∀ line ∈ noteLines (existing.getD []), line ∈ noteLines (appendRecord existing r)

theorem lossy_getD (existing : Option (List UInt8)) :
    (existing.map lossy).getD [] = lossy (existing.getD []) := by
  cases existing <;> rfl

theorem noteLines_appendRecord (existing : Option (List UInt8)) (r : NoteRecord) :
    noteLines (appendRecord existing r)
      = (noteLines (existing.getD [])).map (fun line => encode (lossy line))
        ++ [encode (recordLine r)] := by
  have hvisible := visibleLines_combined (existing.map lossy) (lf_not_mem_recordLine r)
    (trim_recordLine_ne_nil r)
  rw [lossy_getD, visibleLines, visibleLines, splitOn_lossy, List.filter_map] at hvisible
  rw [noteLines, appendRecord, splitOn_encode, List.filter_map]
  have hsame : ((fun line => decide (trim (lossy line) ≠ [])) ∘ encode)
      = fun line : List Char => decide (trim line ≠ []) := by
    funext line
    rw [Function.comp_apply, lossy_encode]
  rw [hsame, hvisible, List.map_append, List.map_map]
  rfl

theorem parseRecords_appendRecord {readJson : List Char → Option NoteRecord}
    (existing : Option (List UInt8)) {r : NoteRecord} (hread : readJson (recordLine r) = some r)
    (hschema : r.schemaVersion ≤ 1) :
    parseRecords readJson (lossy (appendRecord existing r))
      = (parseRecords readJson (lossy (existing.getD []))).map (· ++ [r]) := by
  have hline : parseInkentryLine readJson (recordLine r) = some r := by
    unfold parseInkentryLine
    have hne : recordLine r ≠ [] := List.cons_ne_nil _ _
    simp only [trim_recordLine]
    rw [if_neg hne, hread]
  rw [appendRecord, lossy_encode, parseRecords_eq, parseRecords_eq,
    visibleLines_combined _ (lf_not_mem_recordLine r) (trim_recordLine_ne_nil r), lossy_getD,
    List.filterMap_append, List.filterMap_cons_some hline, List.filterMap_nil,
    checkSchema_concat hschema]

/-- An append keeps a body exactly when the lines of the body that are not blank are
    valid UTF-8; the body's own lines are then followed by the record's, and the
    body's records are followed by the record whether they are or not. -/
theorem appendKeeps_iff {readJson : List Char → Option NoteRecord} (existing : Option (List UInt8))
    {r : NoteRecord} (hread : readJson (recordLine r) = some r) (hschema : r.schemaVersion ≤ 1) :
    (AppendKeeps readJson existing r ↔ ∀ line ∈ noteLines (existing.getD []), Valid line)
      ∧ (AppendKeeps readJson existing r →
          noteLines (appendRecord existing r)
            = noteLines (existing.getD []) ++ [encode (recordLine r)])
      ∧ parseRecords readJson (lossy (appendRecord existing r))
          = (parseRecords readJson (lossy (existing.getD []))).map (· ++ [r]) := by
  have hrecords := parseRecords_appendRecord existing hread hschema
  have hlines := noteLines_appendRecord existing r
  have hvalid : AppendKeeps readJson existing r ↔ ∀ line ∈ noteLines (existing.getD []), Valid line := by
    constructor
    · intro h line hline
      -- everything that is written is text
      have hmem := h.lines line hline
      rw [hlines] at hmem
      rcases List.mem_append.mp hmem with hold | hnew
      · obtain ⟨line', -, rfl⟩ := List.mem_map.mp hold
        exact ⟨lossy line', rfl⟩
      · rw [List.mem_singleton.mp hnew]
        exact ⟨recordLine r, rfl⟩
    · intro h
      refine ⟨hrecords, fun line hline => ?_⟩
      rw [hlines]
      refine List.mem_append_left _ (List.mem_map.mpr ⟨line, hline, ?_⟩)
      exact encode_lossy_iff.mpr (h line hline)
  refine ⟨hvalid, fun h => ?_, hrecords⟩
  have hsame : (noteLines (existing.getD [])).map (fun line => encode (lossy line))
      = noteLines (existing.getD []) := by
    refine (List.map_congr_left fun line hline => ?_).trans (List.map_id _)
    exact encode_lossy_iff.mpr (hvalid.mp h line hline)
  rw [hlines, hsame]

/-- A decision, as `add` records it. -/
def cacheRecord : NoteRecord where
  schemaVersion := 1
  id := 1700000000000
  kind := "decision"
  title := "Cache"
  body := "keep it\nsmall"
  tags := []
  linkedFiles := ["src/cache.rs"]
  createdAt := 1700000000
  status := "active"
  sourceRef := none
  validAt := none
  invalidAt := none
  supersededBy := none
  remoteId := none
  entityId := some "3f5a"
  supersededByEntityId := none
  edges := []
  origin := some ⟨.human, none, none⟩
  op := none
  patchId := none

/-- A reader that knows the decision's line. -/
def readCache (json : List Char) : Option NoteRecord :=
  if json = recordLine cacheRecord then some cacheRecord else none

/-- A line of prose that ends in a carriage return and three line feeds stays. -/
theorem appendKeeps_of_prose :
    AppendKeeps readCache (some (encode "Reviewed by hand\r\n\n\n".toList)) cacheRecord := by
  have hread : readCache (recordLine cacheRecord) = some cacheRecord := if_pos rfl
  refine (appendKeeps_iff _ hread (by decide)).1.mpr fun line hline => ?_
  have hlines : noteLines (encode "Reviewed by hand\r\n\n\n".toList)
      = [encode "Reviewed by hand\r".toList] := by
    decide +kernel
  rw [Option.getD_some, hlines] at hline
  exact ⟨_, List.mem_singleton.mp hline⟩

/-- A line in another encoding, `caf\xe9`, is overwritten. -/
theorem not_appendKeeps_of_latin1 :
    ¬ ∃ readJson, AppendKeeps readJson (some [99, 97, 102, 0xE9, 10]) cacheRecord := by
  rintro ⟨readJson, h⟩
  have hlost : ¬ ∀ line ∈ noteLines [99, 97, 102, 0xE9, 10],
      line ∈ noteLines (appendRecord (some [99, 97, 102, 0xE9, 10]) cacheRecord) := by
    decide +kernel
  exact hlost h.lines

end GitNotes
end Inkentry
