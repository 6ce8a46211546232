/-
  Inkentry.Dump.ReaderOrder

  The order of a dump's records.  The survivors of the convergence-key fold are
  chosen by creation time and reference, so entities do not depend on it.  Of
  the times recorded for one relationship the first in the file is kept, so
  these do.

  `read_order_iff` says that reading a dump does not depend on the order exactly
  when the records of each relationship between survivors agree on their times.
-/

import Inkentry.Dump.ReaderSpec
import Inkentry.Lib.TextLines

namespace Inkentry
namespace PortableDump

open OrderLimit SortedSet KeyedStamp

/-! ## Entities -/

section

variable {sha : String → String} {entities entities' : List Entity}

theorem SoundEntities.perm (h : SoundEntities entities) (hperm : entities.Perm entities') :
    SoundEntities entities' where
  refs := (hperm.map _).nodup_iff.mp h.refs
  no_blank e he := h.no_blank e ((hperm.filterMap _).mem_iff.mpr he)
  uuids := ((hperm.filterMap _).filterMap _).nodup_iff.mp h.uuids
  remoteIds := ((hperm.filterMap _).filterMap _).nodup_iff.mp h.remoteIds

theorem countByName_perm {names names' : List String} (hperm : names.Perm names') :
    countByName names = countByName names' := by
  rw [countByName, countByName, sortDedup_congr fun a => hperm.mem_iff]
  exact List.map_congr_left fun name _ => by rw [hperm.count_eq]

theorem orderedMembers_perm (hrefs : (entities.map Entity.dumpRef).Nodup)
    (hperm : entities.Perm entities') (key : String) :
    orderedMembers sha entities key = orderedMembers sha entities' key := by
  refine sortBy_eq_of_perm _ ((hperm.filterMap _).filter _) fun a ha b hb hab => ?_
  have hmem {m : MemoryEntry} (hm : m ∈ (entities.filterMap Entity.memory?).filter
      fun e => e.convergenceKey sha = key) : Entity.memoryEntry m ∈ entities :=
    (mem_orderedMembers.mp ((mem_sortBy _).mpr hm)).1
  have href : a.dumpRef = b.dumpRef := congrArg (fun k => (ofLex k).2) hab
  exact Entity.memoryEntry.inj (List.inj_on_of_nodup_map hrefs (hmem ha) (hmem hb) href)

theorem keep_perm (hrefs : (entities.map Entity.dumpRef).Nodup) (hperm : entities.Perm entities') :
    keep sha entities = keep sha entities' := by
  funext e
  cases e with
  | memoryEntry m => rw [keep, keep, survivorOf, survivorOf, orderedMembers_perm hrefs hperm]
  | project p => rfl
  | commandUsage u => rfl

theorem survivingRef_perm (hrefs : (entities.map Entity.dumpRef).Nodup)
    (hperm : entities.Perm entities') :
    survivingRef sha entities = survivingRef sha entities' := by
  funext e
  cases e with
  | memoryEntry m =>
    rw [survivingRef, survivingRef, survivorOf, survivorOf, orderedMembers_perm hrefs hperm]
  | project p => rfl
  | commandUsage u => rfl

theorem find?_dumpRef_eq_some_iff (hrefs : (entities.map Entity.dumpRef).Nodup) {dumpRef : String}
    {e : Entity} :
    entities.find? (fun e => e.dumpRef = dumpRef) = some e ↔ e ∈ entities ∧ e.dumpRef = dumpRef := by
  constructor
  · intro h
    exact ⟨List.mem_of_find?_eq_some h, by simpa using List.find?_some h⟩
  · rintro ⟨he, rfl⟩
    obtain ⟨e', he'⟩ := Option.isSome_iff_exists.mp (List.find?_isSome
      (p := fun e' : Entity => e'.dumpRef = e.dumpRef).mpr ⟨e, he, by simp⟩)
    have href := List.find?_some he'
    rw [he', List.inj_on_of_nodup_map hrefs (List.mem_of_find?_eq_some he') he
      (of_decide_eq_true href)]

theorem survivorRef_perm (hrefs : (entities.map Entity.dumpRef).Nodup)
    (hperm : entities.Perm entities') :
    survivorRef sha entities = survivorRef sha entities' := by
  funext dumpRef
  have hrefs' := (hperm.map Entity.dumpRef).nodup_iff.mp hrefs
  have hfind : entities.find? (fun e => e.dumpRef = dumpRef)
      = entities'.find? (fun e => e.dumpRef = dumpRef) := by
    ext e
    rw [find?_dumpRef_eq_some_iff hrefs, find?_dumpRef_eq_some_iff hrefs', hperm.mem_iff]
  rw [survivorRef, survivorRef, hfind, survivingRef_perm hrefs hperm]

end

/-! ## Relationships -/

/-- The relationships read, with a survivor for each reference. -/
def linksOf (survivor : String → String) (relationships : List Relationship) :
    List Relationship :=
  collapse relationshipView ((dedupe relationships).filterMap (redirect survivor))

/-- A record stands for a relationship between survivors. -/
def StandsFor (survivor : String → String) (r y : Relationship) : Prop :=
  r.kind = y.kind ∧ survivor r.source = y.source ∧ survivor r.target = y.target
    ∧ y.source ≠ y.target

/-- The records that stand for one relationship agree on its time. -/
def StampsAgree (survivor : String → String) (relationships : List Relationship) : Prop :=
  ∀ r ∈ relationships, ∀ r' ∈ relationships, r.kind = r'.kind →
    survivor r.source = survivor r'.source → survivor r.target = survivor r'.target →
    survivor r.source ≠ survivor r.target →
    ∀ s t, r.createdAt = some s → r'.createdAt = some t → s = t

section

variable {survivor : String → String} {relationships relationships' : List Relationship}
variable {y : Relationship}

theorem redirect_eq_some_iff {r y : Relationship} :
    redirect survivor r = some y ↔ StandsFor survivor r y ∧ y.createdAt = r.createdAt := by
  obtain ⟨kind, source, target, createdAt⟩ := y
  rw [redirect, StandsFor]
  split
  case isTrue heq =>
    refine iff_of_false (by simp) ?_
    rintro ⟨⟨-, hs, ht, hne⟩, -⟩
    exact hne (hs.symm.trans (heq.trans ht))
  case isFalse hne =>
    simp only [Option.some.injEq, Relationship.mk.injEq]
    constructor
    · rintro ⟨rfl, rfl, rfl, rfl⟩
      exact ⟨⟨rfl, rfl, rfl, hne⟩, rfl⟩
    · rintro ⟨⟨hk, hs, ht, -⟩, hc⟩
      exact ⟨hk, hs, ht, hc.symm⟩

theorem standsFor_congr {r x y : Relationship}
    (h : relationshipView.key r = relationshipView.key x) :
    StandsFor survivor r y ↔ StandsFor survivor x y := by
  obtain ⟨hk, hst⟩ := Prod.mk.inj h
  obtain ⟨hs, ht⟩ := Prod.mk.inj hst
  rw [StandsFor, StandsFor, hk, hs, ht]

theorem standsFor_congr_right {r y z : Relationship}
    (h : relationshipView.key z = relationshipView.key y) :
    StandsFor survivor r z ↔ StandsFor survivor r y := by
  obtain ⟨hk, hst⟩ := Prod.mk.inj h
  obtain ⟨hs, ht⟩ := Prod.mk.inj hst
  rw [StandsFor, StandsFor, hk, hs, ht]

/-- Some record stamped with a time stands for a relationship, before and after the first
    deduplication. -/
theorem exists_dedupe_iff :
    (∃ x ∈ dedupe relationships, StandsFor survivor x y)
      ↔ ∃ r ∈ relationships, StandsFor survivor r y := by
  constructor
  · rintro ⟨x, hx, hy⟩
    obtain ⟨r, hr, hkey⟩ := List.mem_map.mp (mem_collapse.mp hx).1
    exact ⟨r, hr, (standsFor_congr hkey).mpr hy⟩
  · rintro ⟨r, hr, hy⟩
    refine ⟨relationshipView.withStamp r (firstStamp relationshipView relationships
      (relationshipView.key r)), mem_collapse.mpr ?_, ?_⟩
    · rw [View.key_withStamp, View.stamp_withStamp]
      exact ⟨List.mem_map_of_mem hr, rfl⟩
    · exact (standsFor_congr (relationshipView.key_withStamp _ _)).mpr hy

theorem exists_dedupe_stamped_iff (hagree : StampsAgree survivor relationships) {t : Int} :
    (∃ x ∈ dedupe relationships, StandsFor survivor x y ∧ x.createdAt = some t)
      ↔ ∃ r ∈ relationships, StandsFor survivor r y ∧ r.createdAt = some t := by
  constructor
  · rintro ⟨x, hx, hy, hstamp⟩
    obtain ⟨r, hr, hkey, hrstamp⟩ :=
      exists_of_firstStamp ((mem_collapse.mp hx).2.symm.trans hstamp)
    exact ⟨r, hr, (standsFor_congr hkey).mpr hy, hrstamp⟩
  · rintro ⟨r, hr, hy, hstamp⟩
    have hsome : (relationshipView.stamp r).isSome := by
      show r.createdAt.isSome
      rw [hstamp]
      rfl
    obtain ⟨s, hs⟩ := Option.isSome_iff_exists.mp (firstStamp_isSome hr rfl hsome)
    obtain ⟨r', hr', hkey, hstamp'⟩ := exists_of_firstStamp hs
    obtain ⟨hk, hst⟩ := Prod.mk.inj hkey
    obtain ⟨hsrc, htgt⟩ := Prod.mk.inj hst
    obtain rfl : s = t := by
      refine hagree r' hr' r hr hk (congrArg survivor hsrc) (congrArg survivor htgt) ?_ s t hstamp'
        hstamp
      rw [hsrc, htgt, hy.2.1, hy.2.2.1]
      exact hy.2.2.2
    refine ⟨relationshipView.withStamp r (some s), mem_collapse.mpr ?_, ?_, rfl⟩
    · rw [View.key_withStamp, View.stamp_withStamp]
      exact ⟨List.mem_map_of_mem hr, hs.symm⟩
    · exact (standsFor_congr (relationshipView.key_withStamp _ _)).mpr hy

theorem mem_redirected :
    y ∈ (dedupe relationships).filterMap (redirect survivor)
      ↔ ∃ x ∈ dedupe relationships, StandsFor survivor x y ∧ y.createdAt = x.createdAt := by
  rw [List.mem_filterMap]
  exact exists_congr fun x => and_congr_right fun _ => redirect_eq_some_iff

/-- Where the stamps agree, a relationship is read when some record stands for it, with the
    time any of these records has. -/
theorem mem_linksOf_iff (hagree : StampsAgree survivor relationships) :
    y ∈ linksOf survivor relationships
      ↔ (∃ r ∈ relationships, StandsFor survivor r y)
        ∧ ∀ t, y.createdAt = some t
          ↔ ∃ r ∈ relationships, StandsFor survivor r y ∧ r.createdAt = some t := by
  have hkey : relationshipView.key y ∈ ((dedupe relationships).filterMap (redirect survivor)).map
      relationshipView.key ↔ ∃ r ∈ relationships, StandsFor survivor r y := by
    rw [← exists_dedupe_iff, List.mem_map]
    constructor
    · rintro ⟨z, hz, hzy⟩
      obtain ⟨x, hx, hxz, -⟩ := mem_redirected.mp hz
      exact ⟨x, hx, (standsFor_congr_right hzy).mp hxz⟩
    · rintro ⟨x, hx, hxy⟩
      refine ⟨{ y with createdAt := x.createdAt }, mem_redirected.mpr ⟨x, hx, hxy, rfl⟩, rfl⟩
  -- two relationships with one image are one after the first pass, so their stamps agree
  have hstamp (t : Int) : firstStamp relationshipView
      ((dedupe relationships).filterMap (redirect survivor)) (relationshipView.key y) = some t
        ↔ ∃ r ∈ relationships, StandsFor survivor r y ∧ r.createdAt = some t := by
    have hredirected (t : Int) : (∃ z ∈ (dedupe relationships).filterMap (redirect survivor),
        relationshipView.key z = relationshipView.key y ∧ relationshipView.stamp z = some t)
          ↔ ∃ r ∈ relationships, StandsFor survivor r y ∧ r.createdAt = some t := by
      rw [← exists_dedupe_stamped_iff hagree]
      constructor
      · rintro ⟨z, hz, hzy, hzt⟩
        obtain ⟨x, hx, hxz, hzx⟩ := mem_redirected.mp hz
        exact ⟨x, hx, (standsFor_congr_right hzy).mp hxz, hzx.symm.trans hzt⟩
      · rintro ⟨x, hx, hxy, hxt⟩
        exact ⟨{ y with createdAt := x.createdAt }, mem_redirected.mpr ⟨x, hx, hxy, rfl⟩, rfl, hxt⟩
    rw [← hredirected]
    refine firstStamp_eq_some_iff ?_ t
    intro z hz z' hz' hzy hzy' a b ha hb
    obtain ⟨r, hr, hry, hra⟩ := (hredirected a).mp ⟨z, hz, hzy, ha⟩
    obtain ⟨r', hr', hry', hrb⟩ := (hredirected b).mp ⟨z', hz', hzy', hb⟩
    refine hagree r hr r' hr' (hry.1.trans hry'.1.symm) (hry.2.1.trans hry'.2.1.symm)
      (hry.2.2.1.trans hry'.2.2.1.symm) ?_ a b hra hrb
    rw [hry.2.1, hry.2.2.1]
    exact hry.2.2.2
  rw [linksOf, mem_collapse, hkey]
  refine and_congr_right fun _ => ?_
  rw [Option.ext_iff]
  exact forall_congr' fun t => by rw [hstamp]; rfl

theorem linksOf_nodup : (linksOf survivor relationships).Nodup :=
  (collapse_keys_nodup _).of_map _

theorem linksOf_perm (hagree : StampsAgree survivor relationships)
    (hperm : relationships.Perm relationships') :
    (linksOf survivor relationships).Perm (linksOf survivor relationships') := by
  have hagree' : StampsAgree survivor relationships' := fun r hr r' hr' =>
    hagree r (hperm.mem_iff.mpr hr) r' (hperm.mem_iff.mpr hr')
  refine (List.perm_ext_iff_of_nodup linksOf_nodup linksOf_nodup).mpr fun y => ?_
  simp only [mem_linksOf_iff hagree, mem_linksOf_iff hagree', hperm.mem_iff]

/-- The time of a record that is first in the file is the one that is read. -/
theorem mem_linksOf_cons {r : Relationship} {t : Int} (hstamp : r.createdAt = some t)
    (hne : survivor r.source ≠ survivor r.target) (rest : List Relationship) :
    { r with source := survivor r.source, target := survivor r.target }
      ∈ linksOf survivor (r :: rest) := by
  obtain ⟨rest', hdedupe⟩ := collapse_cons_of_stamped (v := relationshipView) hstamp rest
  have hredirect : redirect survivor r
      = some { r with source := survivor r.source, target := survivor r.target } := by
    rw [redirect, if_neg hne]
  rw [linksOf, dedupe, hdedupe, List.filterMap_cons_some hredirect]
  obtain ⟨rest'', hcollapse⟩ := collapse_cons_of_stamped (v := relationshipView)
    (x := { r with source := survivor r.source, target := survivor r.target }) hstamp
    (rest'.filterMap (redirect survivor))
  rw [hcollapse]
  exact List.mem_cons_self

end

/-! ## Files -/

/-- A reader, and a writer that can declare a new digest in a footer. -/
structure DumpEnv extends ReaderEnv where
  reseal : String → String → String
  parse_reseal : ∀ last footer digest, parseFooter last = some footer →
    parseFooter (reseal last digest) = some { footer with digest }
  reseal_one_line : ∀ last digest, '\n' ∉ last.toList → '\n' ∉ digest.toList →
    '\n' ∉ (reseal last digest).toList
  sha256_one_line : ∀ text, '\n' ∉ (sha256 text).toList

/-- A file of complete lines. -/
def unlines (lines : List String) : String :=
  String.ofList (lines.flatMap fun line => line.toList ++ ['\n'])

/-- A dump with its records in another order and the digest recomputed. -/
def DumpEnv.reordered (env : DumpEnv) (first : String) (body : List String) (last : String) :
    String :=
  unlines (first :: (body ++ [env.reseal last (digestOf env.toReaderEnv (first :: body))]))

theorem splitLines_one_line {text : String} {lines : List String}
    (h : splitLines text = .ok lines) : ∀ line ∈ lines, '\n' ∉ line.toList := by
  rw [splitLines] at h
  split at h
  · exact absurd h (by simp)
  · split at h
    · rw [← Except.ok.inj h]
      intro line hline
      obtain ⟨piece, hpiece, rfl⟩ := List.mem_map.mp hline
      rw [String.toList_ofList]
      exact TextLines.not_mem_of_mem_splitOn hpiece
    · exact absurd h (by simp)

theorem splitLines_unlines {lines : List String} (hne : lines ≠ [])
    (hone : ∀ line ∈ lines, '\n' ∉ line.toList) : splitLines (unlines lines) = .ok lines := by
  have hflat (line : String) (rest : List String) :
      (line :: rest).flatMap (fun l => l.toList ++ ['\n'])
        = ['\n'].intercalate ((line :: rest).map String.toList) ++ ['\n'] := by
    induction rest generalizing line with
    | nil => simp
    | cons next rest ih =>
      rw [List.flatMap_cons, ih]
      simp only [List.map_cons, List.intercalate_cons_cons, List.append_assoc]
  obtain ⟨line, rest, rfl⟩ := List.exists_cons_of_ne_nil hne
  rw [splitLines, unlines, String.toList_ofList, hflat, if_neg (by simp), if_pos (by simp),
    List.dropLast_concat, List.splitOn_intercalate _ (by simpa using hone) (by simp),
    List.map_map]
  simp [Function.comp_def]

/-- Reading a file is reading its lines, the first and the last apart. -/
theorem read_of_lines (env : ReaderEnv) {text first last : String} {body : List String}
    (h : splitLines text = .ok (first :: (body ++ [last]))) :
    read env text = readFramed env first body last := by
  rw [read, h]
  cases body with
  | nil => rfl
  | cons second rest =>
    show readFramed env first (second :: (rest ++ [last])).dropLast
      ((second :: (rest ++ [last])).getLastD second) = _
    rw [← List.cons_append, List.dropLast_concat, List.getLastD_concat]

/-! ## Reading in another order -/

/-- An entity with its tags and files as sets. -/
def Entity.canonical : Entity → Entity
  | .memoryEntry e =>
    .memoryEntry { e with tags := sortDedup e.tags, linkedFiles := sortDedup e.linkedFiles }
  | other => other

/-- Two dumps say the same, up to the numbering of the entities. -/
structure Dump.Same (d d' : Dump) : Prop where
  entities : (d.entities.map Entity.canonical).Perm (d'.entities.map Entity.canonical)
  merged : d.mergedMemoryEntries = d'.mergedMemoryEntries
  links : d.links.Perm d'.links

/-- The references a body's references lead to after the fold. -/
def survivorIn (env : ReaderEnv) (body : List String) : String → String :=
  survivorRef env.sha256 (entitiesOf env body)

theorem links_of_accepted {env : ReaderEnv} {first last : String} {body : List String} {d : Dump}
    (h : readFramed env first body last = .ok d) :
    d.links = linksOf (survivorIn env body) (relationshipsOf env body) := by
  obtain ⟨-, -, -, hsound, resolved, hres, rfl⟩ := readFramed_eq_ok_iff.mp h
  exact links_assemble hsound.refs (resolve_eq_ok_iff.mp hres)

theorem exists_resolve_dedupe_iff {entities : List Entity} {relationships : List Relationship} :
    (∃ resolved, resolve entities (dedupe relationships) = .ok resolved)
      ↔ ∀ r ∈ relationships, r.source ∈ entities.map Entity.dumpRef
        ∧ r.target ∈ entities.map Entity.dumpRef := by
  rw [exists_resolve_iff]
  have hends {r r' : Relationship} (h : relationshipView.key r = relationshipView.key r') :
      r.source = r'.source ∧ r.target = r'.target := Prod.mk.inj (Prod.mk.inj h).2
  constructor
  · intro h r hr
    obtain ⟨r', hr', hkey⟩ := List.mem_map.mp
      (((kept_collapse (v := relationshipView) relationships).mem_keys _).mpr (List.mem_map_of_mem hr))
    obtain ⟨hs, ht⟩ := hends hkey
    exact hs ▸ ht ▸ h r' hr'
  · intro h r hr
    obtain ⟨r', hr', hkey⟩ := List.mem_map.mp (mem_collapse.mp hr).1
    obtain ⟨hs, ht⟩ := hends hkey
    exact hs ▸ ht ▸ h r' hr'

section

variable {env : DumpEnv} {text first last : String} {body body' : List String} {d : Dump}

/-- A dump that is accepted is accepted in any other order, with the same entities. -/
theorem read_reordered (hlines : splitLines text = .ok (first :: (body ++ [last])))
    (h : read env.toReaderEnv text = .ok d) (hperm : body.Perm body') :
    ∃ d', read env.toReaderEnv (env.reordered first body' last) = .ok d'
      ∧ d.entities.Perm d'.entities ∧ d.mergedMemoryEntries = d'.mergedMemoryEntries
      ∧ d.links = linksOf (survivorIn env.toReaderEnv body) (relationshipsOf env.toReaderEnv body)
      ∧ d'.links = linksOf (survivorIn env.toReaderEnv body)
        (relationshipsOf env.toReaderEnv body') := by
  rw [read_of_lines _ hlines] at h
  have hlinks := links_of_accepted h
  obtain ⟨hheader, hfooter, hbody, hsound, resolved, hres, rfl⟩ := readFramed_eq_ok_iff.mp h
  have hent : (entitiesOf env.toReaderEnv body).Perm (entitiesOf env.toReaderEnv body') :=
    hperm.filterMap _
  have hrel : (relationshipsOf env.toReaderEnv body).Perm
      (relationshipsOf env.toReaderEnv body') := hperm.filterMap _
  -- the reader resolves every end against the refs of the body, whatever their order
  obtain ⟨resolved', hres'⟩ : ∃ resolved', resolve (entitiesOf env.toReaderEnv body')
      (dedupe (relationshipsOf env.toReaderEnv body')) = .ok resolved' := by
    have hknown := exists_resolve_dedupe_iff.mp ⟨resolved, hres⟩
    refine exists_resolve_dedupe_iff.mpr fun r hr => ?_
    rw [← (hent.map Entity.dumpRef).mem_iff, ← (hent.map Entity.dumpRef).mem_iff]
    exact hknown r (hrel.mem_iff.mpr hr)
  have hone := splitLines_one_line hlines
  have hdigest : '\n' ∉ (digestOf env.toReaderEnv (first :: body')).toList := by
    rw [digestOf, String.toList_append, List.mem_append, not_or]
    exact ⟨by decide, env.sha256_one_line _⟩
  have hlines' : splitLines (env.reordered first body' last) = .ok (first :: (body'
      ++ [env.reseal last (digestOf env.toReaderEnv (first :: body'))])) := by
    refine splitLines_unlines (by simp) fun line hline => ?_
    simp only [List.mem_cons, List.mem_append, List.not_mem_nil, or_false] at hline
    rcases hline with rfl | hline | rfl
    · exact hone _ (by simp)
    · exact hone _ (by simp [hperm.mem_iff.mpr hline])
    · exact env.reseal_one_line _ _ (hone _ (by simp)) hdigest
  -- the footer counts entities and relationships, so only its digest has to be sealed anew
  have hcounts : foundCounts (entitiesOf env.toReaderEnv body)
      (relationshipsOf env.toReaderEnv body)
        = foundCounts (entitiesOf env.toReaderEnv body')
          (relationshipsOf env.toReaderEnv body') := by
    rw [foundCounts, foundCounts, countByName_perm (hent.map _), countByName_perm (hrel.map _)]
  have hread : readFramed env.toReaderEnv first body'
      (env.reseal last (digestOf env.toReaderEnv (first :: body')))
        = .ok (assemble env.sha256 (entitiesOf env.toReaderEnv body') resolved') := by
    refine readFramed_eq_ok_iff.mpr ⟨hheader, ?_, fun line hline =>
      hbody line (hperm.mem_iff.mpr hline), hsound.perm hent, resolved', hres', rfl⟩
    rw [env.parse_reseal _ _ _ hfooter, hcounts]
  -- a merged entry is dropped for the survivor of its group, not for the line before it
  have hkept : ((entitiesOf env.toReaderEnv body).filterMap
      (keep env.sha256 (entitiesOf env.toReaderEnv body))).Perm
        ((entitiesOf env.toReaderEnv body').filterMap
          (keep env.sha256 (entitiesOf env.toReaderEnv body'))) := by
    rw [keep_perm hsound.refs hent]
    exact hent.filterMap _
  have hsurvivor : survivorIn env.toReaderEnv body' = survivorIn env.toReaderEnv body :=
    (survivorRef_perm hsound.refs hent).symm
  refine ⟨_, (read_of_lines _ hlines').trans hread, hkept, ?_, hlinks, ?_⟩
  · show _ - _ = _ - _
    rw [hent.length_eq, hkept.length_eq]
  · rw [links_of_accepted hread, hsurvivor]

/-- Reading a dump does not depend on the order of its records exactly when the records
    that stand for one relationship between survivors agree on its time. -/
theorem read_order_iff (hlines : splitLines text = .ok (first :: (body ++ [last])))
    (h : read env.toReaderEnv text = .ok d) :
    (∀ body', body.Perm body' →
        ∃ d', read env.toReaderEnv (env.reordered first body' last) = .ok d' ∧ d.Same d')
      ↔ StampsAgree (survivorIn env.toReaderEnv body) (relationshipsOf env.toReaderEnv body) := by
  constructor
  · intro hsame r hr r' hr' hkind hsource htarget hne s t hs ht
    -- the file with a record's line in front
    have hfront {r : Relationship} (hr : r ∈ relationshipsOf env.toReaderEnv body) {s : Int}
        (hs : r.createdAt = some s) (hne : survivorIn env.toReaderEnv body r.source
          ≠ survivorIn env.toReaderEnv body r.target) :
        { r with
          source := survivorIn env.toReaderEnv body r.source
          target := survivorIn env.toReaderEnv body r.target } ∈ d.links := by
      obtain ⟨line, hline, hparse⟩ := List.mem_filterMap.mp hr
      have hperm := List.perm_cons_erase hline
      obtain ⟨d₁, hread, -, -, -, hlinks⟩ := read_reordered hlines h hperm
      obtain ⟨d₂, hread₂, hsame₂⟩ := hsame _ hperm
      obtain rfl : d₁ = d₂ := Except.ok.inj (hread.symm.trans hread₂)
      have hfirst : relationshipsOf env.toReaderEnv (line :: body.erase line)
          = r :: relationshipsOf env.toReaderEnv (body.erase line) :=
        List.filterMap_cons_some hparse
      rw [hsame₂.links.mem_iff, hlinks, hfirst]
      exact mem_linksOf_cons hs hne _
    have hmem := hfront hr hs hne
    have hmem' := hfront hr' ht (hsource ▸ htarget ▸ hne)
    obtain ⟨-, -, -, -, hlinks, -⟩ := read_reordered hlines h (.refl body)
    rw [hlinks] at hmem hmem'
    have heq := List.inj_on_of_nodup_map (collapse_keys_nodup _) hmem hmem'
      (by simp [relationshipView, hkind, hsource, htarget])
    have htime := congrArg Relationship.createdAt heq
    exact Option.some.inj (hs.symm.trans (htime.trans ht))
  · intro hagree body' hperm
    obtain ⟨d', hread, hent, hmerged, hlinks, hlinks'⟩ := read_reordered hlines h hperm
    refine ⟨d', hread, hent.map _, hmerged, ?_⟩
    rw [hlinks, hlinks']
    exact linksOf_perm hagree (hperm.filterMap _)

end

/-! ## A relationship recorded twice -/

def headerLine : String :=
  "\x7b\"record\":\"header\",\"format\":\"portable-dump\",\"format_version\":1,"
    ++ "\"generated_at\":1786350000,\"generator\":\"inkentry\"\x7d"

/-- The line of an entry with nothing but what is required. -/
def entryLine (dumpRef title : String) : String :=
  "\x7b\"record\":\"entity\",\"type\":\"memory_entry\",\"ref\":\"" ++ dumpRef
    ++ "\",\"kind\":\"note\",\"title\":\"" ++ title ++ "\",\"body\":\"\",\"created_at\":1\x7d"

def entryOf (dumpRef title : String) : MemoryEntry :=
  ⟨dumpRef, none, "note", title, "", [], [], 1, none, none, none, none, none, none, none, none,
    none⟩

def supersedesStart : String :=
  "\x7b\"record\":\"relationship\",\"type\":\"supersedes\",\"from\":\"e2\",\"to\":\"e1\""

def lineEnd : String := "\x7d"

/-- The line that says `e2` replaced `e1`, with the rest of the line after the two ends. -/
def supersedesLine (rest : String) : String := supersedesStart ++ rest ++ lineEnd

def footerStart : String :=
  "\x7b\"record\":\"footer\",\"counts\":\x7b\"entity\":\x7b\"memory_entry\":2\x7d,"
    ++ "\"relationship\":\x7b\"supersedes\":2\x7d\x7d,\"digest\":\""

def footerEnd : String := "\"\x7d"

def footerCounts : Counts := ⟨[("memory_entry", 2)], [("supersedes", 2)]⟩

/-- The JSON values of the lines of these samples. -/
def sampleRecord (line : String) : Option Record :=
  if line = entryLine "e1" "a" then some (.entity (.memoryEntry (entryOf "e1" "a")))
  else if line = entryLine "e2" "b" then some (.entity (.memoryEntry (entryOf "e2" "b")))
  else if line = supersedesLine "" then some (.relationship ⟨.supersedes, "e2", "e1", none⟩)
  else if line = supersedesLine ",\"created_at\":10" then
    some (.relationship ⟨.supersedes, "e2", "e1", some 10⟩)
  else if line = supersedesLine ",\"created_at\":20" then
    some (.relationship ⟨.supersedes, "e2", "e1", some 20⟩)
  else none

/-- The footer of these samples, with any digest. -/
def sampleFooter (line : String) : Option Footer :=
  if footerStart.toList <+: line.toList ∧ footerEnd.toList <:+ line.toList then
    let rest := line.toList.drop footerStart.toList.length
    some ⟨footerCounts, String.ofList (rest.take (rest.length - footerEnd.toList.length))⟩
  else none

/-- A reader of these samples, whose digest keeps a text on one line. -/
def sampleEnv : DumpEnv where
  parseHeader line := if line = headerLine then some ⟨FORMAT, FORMAT_VERSION⟩ else none
  parseFooter := sampleFooter
  parseRecord := sampleRecord
  sha256 text := String.ofList (text.toList.map fun c => if c = '\n' then ' ' else c)
  reseal _ digest := footerStart ++ digest ++ footerEnd
  parse_reseal last footer digest h := by
    have hcounts : footer.counts = footerCounts := by
      rw [sampleFooter] at h
      split at h
      · rw [← Option.some.inj h]
      · exact absurd h (by simp)
    rw [sampleFooter, if_pos]
    · simp [hcounts]
    · simp only [String.toList_append, List.append_assoc]
      exact ⟨List.prefix_append _ _, by
        rw [← List.append_assoc]
        exact List.suffix_append _ _⟩
  reseal_one_line last digest _ h := by
    simp only [String.toList_append, List.mem_append, not_or]
    exact ⟨⟨by decide +kernel, h⟩, by decide⟩
  sha256_one_line text := by
    rw [String.toList_ofList, List.mem_map]
    rintro ⟨c, -, hc⟩
    split at hc
    · exact absurd hc (by decide)
    · contradiction

/-- The two entries and two records of one relationship. -/
def sampleBody (rest rest' : String) : List String :=
  [entryLine "e1" "a", entryLine "e2" "b", supersedesLine rest, supersedesLine rest']

def sampleLast (body : List String) : String :=
  sampleEnv.reseal (footerStart ++ footerEnd) (digestOf sampleEnv.toReaderEnv (headerLine :: body))

def sampleDump (body : List String) : String :=
  sampleEnv.reordered headerLine body (footerStart ++ footerEnd)

section

variable {rest rest' : String} {t t' : Option Int}

theorem sampleBody_one_line (rest rest' : String) (h : '\n' ∉ rest.toList) (h' : '\n' ∉ rest'.toList) :
    ∀ line ∈ sampleBody rest rest', '\n' ∉ line.toList := by
  have hsupersedes (rest : String) (h : '\n' ∉ rest.toList) :
      '\n' ∉ (supersedesLine rest).toList := by
    rw [supersedesLine, String.toList_append, String.toList_append, List.mem_append,
      List.mem_append, not_or, not_or]
    exact ⟨⟨by decide +kernel, h⟩, by decide⟩
  rw [sampleBody, List.forall_mem_cons, List.forall_mem_cons, List.forall_mem_cons,
    List.forall_mem_singleton]
  exact ⟨by decide +kernel, by decide +kernel, hsupersedes rest h, hsupersedes rest' h'⟩

theorem splitLines_sampleDump (hone : ∀ line ∈ sampleBody rest rest', '\n' ∉ line.toList) :
    splitLines (sampleDump (sampleBody rest rest'))
      = .ok (headerLine :: (sampleBody rest rest' ++ [sampleLast (sampleBody rest rest')])) := by
  refine splitLines_unlines (by simp) fun line hline => ?_
  simp only [List.mem_cons, List.mem_append, List.not_mem_nil, or_false] at hline
  rcases hline with rfl | hline | rfl
  · decide +kernel
  · exact hone line hline
  · refine sampleEnv.reseal_one_line _ _ (by decide +kernel) ?_
    rw [digestOf, String.toList_append, List.mem_append, not_or]
    exact ⟨by decide, sampleEnv.sha256_one_line _⟩

/-- The samples are accepted. -/
theorem read_sampleDump (hone : ∀ line ∈ sampleBody rest rest', '\n' ∉ line.toList)
    (ht : sampleRecord (supersedesLine rest) = some (.relationship ⟨.supersedes, "e2", "e1", t⟩))
    (ht' : sampleRecord (supersedesLine rest')
      = some (.relationship ⟨.supersedes, "e2", "e1", t'⟩)) :
    relationshipsOf sampleEnv.toReaderEnv (sampleBody rest rest')
        = [⟨.supersedes, "e2", "e1", t⟩, ⟨.supersedes, "e2", "e1", t'⟩]
      ∧ entitiesOf sampleEnv.toReaderEnv (sampleBody rest rest')
        = [.memoryEntry (entryOf "e1" "a"), .memoryEntry (entryOf "e2" "b")]
      ∧ ∃ d, read sampleEnv.toReaderEnv (sampleDump (sampleBody rest rest')) = .ok d := by
  have hone₁ : sampleRecord (entryLine "e1" "a") = some (.entity (.memoryEntry (entryOf "e1" "a"))) :=
    if_pos rfl
  have htwo : sampleRecord (entryLine "e2" "b") = some (.entity (.memoryEntry (entryOf "e2" "b"))) := by
    decide +kernel
  have hrecords : relationshipsOf sampleEnv.toReaderEnv (sampleBody rest rest')
      = [⟨.supersedes, "e2", "e1", t⟩, ⟨.supersedes, "e2", "e1", t'⟩] := by
    simp [relationshipsOf, sampleBody, sampleEnv, hone₁, htwo, ht, ht', Record.relationship?]
  have hentries : entitiesOf sampleEnv.toReaderEnv (sampleBody rest rest')
      = [.memoryEntry (entryOf "e1" "a"), .memoryEntry (entryOf "e2" "b")] := by
    simp [entitiesOf, sampleBody, sampleEnv, hone₁, htwo, ht, ht', Record.entity?]
  have hbody : ∀ line ∈ sampleBody rest rest', isBodyLine sampleEnv.toReaderEnv line := by
    intro line hline
    simp only [sampleBody, List.mem_cons, List.not_mem_nil, or_false] at hline
    rcases hline with rfl | rfl | rfl | rfl
    · exact ⟨_, hone₁, by simp, by simp⟩
    · exact ⟨_, htwo, by simp, by simp⟩
    · exact ⟨_, ht, by simp, by simp⟩
    · exact ⟨_, ht', by simp, by simp⟩
  have hheader : sampleEnv.parseHeader headerLine = some ⟨FORMAT, FORMAT_VERSION⟩ := by
    show (if headerLine = headerLine then some (⟨FORMAT, FORMAT_VERSION⟩ : Header) else none) = _
    rw [if_pos rfl]
  have hcounts : foundCounts [.memoryEntry (entryOf "e1" "a"), .memoryEntry (entryOf "e2" "b")]
      [⟨.supersedes, "e2", "e1", t⟩, ⟨.supersedes, "e2", "e1", t'⟩] = footerCounts := by
    show (⟨countByName ["memory_entry", "memory_entry"], countByName ["supersedes", "supersedes"]⟩ :
      Counts) = footerCounts
    decide +kernel
  -- the footer carries the digest of the body that is read with it
  have hfooter := sampleEnv.parse_reseal (footerStart ++ footerEnd) ⟨footerCounts, ""⟩
    (digestOf sampleEnv.toReaderEnv (headerLine :: sampleBody rest rest')) (by decide +kernel)
  obtain ⟨resolved, hres⟩ := exists_resolve_dedupe_iff.mpr (show ∀ r ∈
      relationshipsOf sampleEnv.toReaderEnv (sampleBody rest rest'),
      r.source ∈ (entitiesOf sampleEnv.toReaderEnv (sampleBody rest rest')).map Entity.dumpRef
        ∧ r.target ∈ (entitiesOf sampleEnv.toReaderEnv (sampleBody rest rest')).map
          Entity.dumpRef by
    rw [hrecords, hentries]
    simp [Entity.dumpRef, entryOf])
  refine ⟨hrecords, hentries, _, (read_of_lines _ (splitLines_sampleDump hone)).trans
    (readFramed_eq_ok_iff.mpr ⟨⟨_, hheader, rfl, rfl⟩, ?_, hbody, ?_, resolved, hres, rfl⟩)⟩
  · rw [hentries, hrecords, hcounts]
    exact hfooter
  · rw [hentries]
    constructor <;> decide +kernel

end

/-- One record has a time and the other has none: the order does not matter. -/
theorem read_order_of_one_time :
    ∃ d, read sampleEnv.toReaderEnv (sampleDump (sampleBody ",\"created_at\":10" "")) = .ok d
      ∧ ∀ body', (sampleBody ",\"created_at\":10" "").Perm body' →
        ∃ d', read sampleEnv.toReaderEnv (sampleEnv.reordered headerLine body'
          (sampleLast (sampleBody ",\"created_at\":10" ""))) = .ok d' ∧ d.Same d' := by
  have hone := sampleBody_one_line ",\"created_at\":10" "" (by decide) (by decide)
  obtain ⟨hrecords, -, d, hread⟩ := @read_sampleDump _ _ (some 10) none hone
    (by decide +kernel) (by decide +kernel)
  refine ⟨d, hread, (read_order_iff (splitLines_sampleDump hone) hread).mpr ?_⟩
  rw [hrecords]
  simp only [StampsAgree, List.mem_cons, List.not_mem_nil, or_false]
  rintro r (rfl | rfl) r' (rfl | rfl) _ _ _ _ s t hs ht <;> simp_all

/-- Both records have a time: the one that is first in the file is read. -/
theorem not_read_order_of_two_times :
    ∃ d body', read sampleEnv.toReaderEnv
        (sampleDump (sampleBody ",\"created_at\":10" ",\"created_at\":20")) = .ok d
      ∧ (sampleBody ",\"created_at\":10" ",\"created_at\":20").Perm body'
      ∧ ¬ ∃ d', read sampleEnv.toReaderEnv (sampleEnv.reordered headerLine body'
          (sampleLast (sampleBody ",\"created_at\":10" ",\"created_at\":20"))) = .ok d'
        ∧ d.Same d' := by
  have hone := sampleBody_one_line ",\"created_at\":10" ",\"created_at\":20" (by decide)
    (by decide)
  have hten : sampleRecord (supersedesLine ",\"created_at\":10")
      = some (.relationship ⟨.supersedes, "e2", "e1", some 10⟩) := by decide +kernel
  have htwenty : sampleRecord (supersedesLine ",\"created_at\":20")
      = some (.relationship ⟨.supersedes, "e2", "e1", some 20⟩) := by decide +kernel
  have hone' := sampleBody_one_line ",\"created_at\":20" ",\"created_at\":10" (by decide)
    (by decide)
  obtain ⟨hrecords, hentries, d, hread⟩ := read_sampleDump hone hten htwenty
  obtain ⟨hrecords', -, -⟩ := read_sampleDump hone' htwenty hten
  have hperm : (sampleBody ",\"created_at\":10" ",\"created_at\":20").Perm
      (sampleBody ",\"created_at\":20" ",\"created_at\":10") :=
    ((List.Perm.swap _ _ _).cons _).cons _
  refine ⟨d, _, hread, hperm, ?_⟩
  rintro ⟨d', hread', hsame⟩
  obtain ⟨d₁, hread₁, -, -, hlinks, hlinks'⟩ :=
    read_reordered (splitLines_sampleDump hone) hread hperm
  obtain rfl : d₁ = d' := Except.ok.inj (hread₁.symm.trans hread')
  -- each order keeps the time of the line that comes first
  have hfirst : d.links = [⟨.supersedes, "e2", "e1", some 10⟩] := by
    rw [hlinks, hrecords, survivorIn, hentries]
    decide +kernel
  have hsecond : d₁.links = [⟨.supersedes, "e2", "e1", some 20⟩] := by
    rw [hlinks', hrecords', survivorIn, hentries]
    decide +kernel
  have hlinksPerm := hsame.links
  rw [hfirst, hsecond, List.singleton_perm_singleton] at hlinksPerm
  exact absurd hlinksPerm (by decide)

end PortableDump
end Inkentry
