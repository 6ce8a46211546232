/-
  Inkentry.Memory.FilePlaces

  The file that a path names, read off its text: how far it climbs above where a
  relative path starts, and the names it goes down.

  The code keeps the names and forgets the climb (`lexicallyNormalize_eq`), so a
  relative root accepts paths that leave it and come back by name; it takes any
  absolute path under a root without names; and it trims what it reads but not
  what it returns.  Everything else is right (`linksLaw_iff`).
-/

import Inkentry.Memory.FileLinks

namespace Inkentry
namespace Memory

open TextLines JoinedText

/-! ## The law -/

/-- What a path names: `ups` levels above the start of a relative path, then down the names. -/
@[ext] structure Place where
  absolute : Bool
  ups : ℕ
  names : List (List Char)
  deriving DecidableEq, Repr

/-- One component further; there is nothing above the root of the file system. -/
def Place.enter (place : Place) (part : List Char) : Place :=
  if part = ['.', '.'] then
    if place.names = [] then
      if place.absolute then place else { place with ups := place.ups + 1 }
    else { place with names := place.names.dropLast }
  else { place with names := place.names ++ [part] }

def FilePath.place (path : FilePath) : Place := path.parts.foldl Place.enter ⟨path.absolute, 0, []⟩

/-- Below a place, by some names. -/
def Place.Below (place base : Place) : Prop :=
  ∃ names, names ≠ [] ∧ place = { base with names := base.names ++ names }

/-- The path that is asked for. -/
def candidate (root raw : List Char) : FilePath :=
  (FilePath.parse root).join (FilePath.parse (slashed raw))

/-- A path that is accepted: under the root it names what was asked for, and it stays as it is. -/
structure Accepted (root raw path : List Char) : Prop where
  relative : (FilePath.parse path).absolute = false
  noParent : ['.', '.'] ∉ (FilePath.parse path).parts
  same : ((FilePath.parse root).join (FilePath.parse path)).place = (candidate root raw).place
  inside : (candidate root raw).place.Below (FilePath.parse root).place
  again : normalizeRelativePath root path = some path

def LinksLaw (root raw : List Char) : Prop :=
  ∀ path, normalizeRelativePath root raw = some path → Accepted root raw path

/-- What the root and the path must not be: an absolute path needs a root with a name or an absolute
one; a path that goes down the root's names does so from where the root does, and what it goes
down then begins and ends without white space. -/
def KeepsInside (root raw : List Char) : Prop :=
  ((candidate root raw).absolute ≠ (FilePath.parse root).absolute → (FilePath.parse root).place.names ≠ [])
    ∧ ∀ names, names ≠ [] → (candidate root raw).absolute = (FilePath.parse root).absolute →
        (candidate root raw).place.names = (FilePath.parse root).place.names ++ names →
        (candidate root raw).place.ups = (FilePath.parse root).place.ups
          ∧ trim (JoinedText.join '/' names) = JoinedText.join '/' names

/-! ## Components -/

/-- A name below a directory. -/
structure IsName (part : List Char) : Prop where
  ne_nil : part ≠ []
  ne_dot : part ≠ ['.']
  ne_dots : part ≠ ['.', '.']
  plain : '/' ∉ part

theorem part_of_parse {text part : List Char} (h : part ∈ (FilePath.parse text).parts) :
    part ≠ [] ∧ part ≠ ['.'] ∧ '/' ∉ part ∧ ∀ c ∈ part, c ∈ text := by
  obtain ⟨hmem, hpart⟩ := List.mem_filter.mp h
  simp only [ne_eq, Bool.and_eq_true, decide_eq_true_eq] at hpart
  exact ⟨hpart.1, hpart.2, not_mem_of_mem_splitOn hmem, fun c hc => mem_of_mem_splitOn hmem hc⟩

theorem backslash_not_mem_slashed (raw : List Char) : '\\' ∉ slashed raw := by
  intro h
  obtain ⟨c, -, hc⟩ := List.mem_map.mp h
  split at hc
  · cases hc
  · next hne => exact hne hc

theorem slashed_eq_self {path : List Char} (htrim : trim path = path) (h : '\\' ∉ path) :
    slashed path = path := by
  rw [slashed, htrim]
  refine (List.map_congr_left fun c hc => ?_).trans (List.map_id path)
  exact if_neg fun heq : c = '\\' => h (heq ▸ hc)

theorem parse_join {names : List (List Char)} (hne : names ≠ []) (hnames : ∀ n ∈ names, IsName n) :
    FilePath.parse (JoinedText.join '/' names) = ⟨false, names⟩ := by
  rw [FilePath.parse, splitOn_join hne fun n hn => (hnames n hn).plain, List.filter_eq_self.mpr fun n hn => by
    simp [(hnames n hn).ne_nil, (hnames n hn).ne_dot]]
  obtain ⟨first, names, rfl⟩ := List.exists_cons_of_ne_nil hne
  have hfirst := hnames first List.mem_cons_self
  obtain ⟨c, first, rfl⟩ := List.exists_cons_of_ne_nil hfirst.ne_nil
  have hhead : (JoinedText.join '/' ((c :: first) :: names)).head? = some c := by
    cases names <;> rfl
  rw [hhead]
  have hc : c ≠ '/' := fun heq => hfirst.plain (heq ▸ List.mem_cons_self)
  simp [hc]

/-! ## Places -/

section Places

variable {path base : FilePath} {place : Place} {parts names : List (List Char)}

/-- The code's components on top of others are the names of the place. -/
theorem foldl_enter (parts : List (List Char)) (place : Place) :
    (parts.foldl Place.enter place).absolute = place.absolute
      ∧ (parts.foldl Place.enter place).names = parts.foldl pushPart place.names := by
  induction parts generalizing place with
  | nil => exact ⟨rfl, rfl⟩
  | cons part parts ih =>
    have hstep : (place.enter part).absolute = place.absolute
        ∧ (place.enter part).names = pushPart place.names part := by
      rw [Place.enter, pushPart]
      split
      · split
        case isTrue hnil => split <;> exact ⟨rfl, by rw [hnil]; rfl⟩
        case isFalse => exact ⟨rfl, rfl⟩
      · exact ⟨rfl, rfl⟩
    rw [List.foldl_cons, List.foldl_cons, (ih _).1, (ih _).2, hstep.1, hstep.2]
    exact ⟨rfl, rfl⟩

/-- Normalising keeps the names of a place and forgets how far it climbed. -/
theorem lexicallyNormalize_eq (path : FilePath) :
    path.lexicallyNormalize = ⟨path.absolute, path.place.names⟩ := by
  rw [FilePath.lexicallyNormalize, FilePath.place, (foldl_enter _ _).2]

theorem place_absolute (path : FilePath) : path.place.absolute = path.absolute := (foldl_enter _ _).1

theorem foldl_enter_names (hnames : ∀ n ∈ names, IsName n) (place : Place) :
    names.foldl Place.enter place = { place with names := place.names ++ names } := by
  induction names generalizing place with
  | nil => rw [List.foldl_nil, List.append_nil]
  | cons n names ih =>
    have hstep : place.enter n = { place with names := place.names ++ [n] } :=
      if_neg (hnames n List.mem_cons_self).ne_dots
    rw [List.foldl_cons, hstep, ih fun m hm => hnames m (List.mem_cons_of_mem _ hm)]
    simp

theorem place_join_names (hnames : ∀ n ∈ names, IsName n) :
    (base.join ⟨false, names⟩).place = { base.place with names := base.place.names ++ names } := by
  rw [FilePath.join, if_neg Bool.false_ne_true, FilePath.place, List.foldl_append, foldl_enter_names hnames]
  rfl

/-- What the components leave of those they are put on, and what they add. -/
theorem exists_take_append (parts out : List (List Char)) :
    ∃ k added, parts.foldl pushPart out = out.take k ++ added ∧ added.Sublist parts := by
  induction parts generalizing out with
  | nil => exact ⟨out.length, [], by simp, List.Sublist.slnil⟩
  | cons part parts ih =>
    obtain ⟨k, added, hfold, hsub⟩ := ih (pushPart out part)
    rw [List.foldl_cons, hfold, pushPart]
    split
    -- `..` takes the last part off, which is of the path or was there before
    case isTrue =>
      refine ⟨min k (out.length - 1), added, ?_, hsub.cons part⟩
      rw [List.dropLast_eq_take, List.take_take]
    case isFalse =>
      rcases Nat.lt_or_ge out.length k with hlt | hge
      · refine ⟨out.length, part :: added, ?_, hsub.cons_cons part⟩
        rw [List.take_of_length_le (by rw [List.length_append, List.length_singleton]; omega),
          List.take_length, List.append_assoc, List.singleton_append]
      · refine ⟨k, added, ?_, hsub.cons part⟩
        rw [List.take_append_of_le_length hge]

/-- What lies on top of the components that were there comes from those that were put on. -/
theorem sublist_of_foldl {out added : List (List Char)} (h : parts.foldl pushPart out = out ++ added) :
    added.Sublist parts := by
  obtain ⟨k, added', hfold, hsub⟩ := exists_take_append parts out
  rw [hfold] at h
  rcases List.append_eq_append_iff.mp h with ⟨between, -, hadded⟩ | ⟨between, htake, hadded⟩
  · rw [hadded] at hsub
    exact (List.sublist_append_right between added).trans hsub
  · have hnil : between = [] := by
      have hlength := congrArg List.length htake
      rw [List.length_take, List.length_append] at hlength
      exact List.length_eq_zero_iff.mp (by omega)
    rw [hadded, hnil, List.nil_append]
    exact hsub

theorem ne_dots_of_mem_foldl {part : List Char} {out : List (List Char)} (hout : ['.', '.'] ∉ out)
    (h : part ∈ parts.foldl pushPart out) : part ≠ ['.', '.'] := by
  induction parts generalizing out with
  | nil => exact fun heq => hout (heq ▸ h)
  | cons next parts ih =>
    refine ih (fun hmem => ?_) h
    rw [pushPart] at hmem
    split at hmem
    case isTrue => exact hout ((List.dropLast_sublist _).subset hmem)
    case isFalse hne =>
      rcases List.mem_append.mp hmem with hold | hlast
      · exact hout hold
      · exact hne (List.mem_singleton.mp hlast).symm

end Places

/-! ## What is accepted -/

section Root

variable {root raw path : List Char} {names : List (List Char)}

theorem candidate_of_relative (h : (FilePath.parse (slashed raw)).absolute = false) :
    (candidate root raw).absolute = (FilePath.parse root).absolute
      ∧ (candidate root raw).place.names
        = (FilePath.parse (slashed raw)).parts.foldl pushPart (FilePath.parse root).place.names := by
  rw [candidate, FilePath.join, h, if_neg Bool.false_ne_true]
  refine ⟨rfl, ?_⟩
  rw [FilePath.place, List.foldl_append, (foldl_enter _ _).2]
  rfl

theorem candidate_of_absolute (h : (FilePath.parse (slashed raw)).absolute = true) :
    (candidate root raw).absolute = true
      ∧ (candidate root raw).place.names = (FilePath.parse (slashed raw)).parts.foldl pushPart [] := by
  rw [candidate, FilePath.join, if_pos h]
  exact ⟨h, (foldl_enter _ _).2⟩

theorem sublist_raw (h : (candidate root raw).place.names = (FilePath.parse root).place.names ++ names) :
    names.Sublist (FilePath.parse (slashed raw)).parts := by
  cases habsolute : (FilePath.parse (slashed raw)).absolute with
  | false =>
    rw [(candidate_of_relative habsolute).2] at h
    exact sublist_of_foldl h
  | true =>
    rw [(candidate_of_absolute habsolute).2, ← List.nil_append (_ ++ names)] at h
    exact (List.sublist_append_right _ _).trans (sublist_of_foldl h)

theorem isName_of_candidate
    (h : (candidate root raw).place.names = (FilePath.parse root).place.names ++ names) :
    ∀ n ∈ names, IsName n := by
  intro n hn
  obtain ⟨hne, hdot, hplain, -⟩ := part_of_parse ((sublist_raw h).subset hn)
  have hmem : n ∈ (candidate root raw).place.names := h ▸ List.mem_append_right _ hn
  rw [FilePath.place, (foldl_enter _ _).2] at hmem
  exact ⟨hne, hdot, ne_dots_of_mem_foldl List.not_mem_nil hmem, hplain⟩

/-- A path is accepted when its names go on from those of the root, or when it is absolute and the
root is relative and without names. -/
theorem normalizeRelativePath_eq_some_iff : normalizeRelativePath root raw = some path
    ↔ slashed raw ≠ []
      ∧ (((candidate root raw).absolute = (FilePath.parse root).absolute
          ∧ ∃ names, names ≠ []
            ∧ (candidate root raw).place.names = (FilePath.parse root).place.names ++ names
            ∧ path = JoinedText.join '/' names)
        ∨ ((candidate root raw).absolute ≠ (FilePath.parse root).absolute
          ∧ (FilePath.parse root).place.names = []
          ∧ path = JoinedText.join '/' (['/'] :: (candidate root raw).place.names))) := by
  rw [normalizeRelativePath]
  by_cases hempty : slashed raw = []
  · rw [if_pos hempty]
    simp [hempty]
  rw [if_neg hempty, and_iff_right hempty]
  have hcandidate : (FilePath.parse root).join (FilePath.parse (slashed raw)) = candidate root raw := rfl
  simp only [hcandidate, lexicallyNormalize_eq, FilePath.stripPrefix]
  by_cases habsolute : (candidate root raw).absolute = (FilePath.parse root).absolute
  · -- both start in one place, and the names decide
    rw [if_pos habsolute, and_iff_right habsolute, or_iff_left fun h => h.1 habsolute]
    have hdrop : ∀ names, (candidate root raw).place.names.dropPrefix? (FilePath.parse root).place.names = some names
        ↔ (candidate root raw).place.names = (FilePath.parse root).place.names ++ names := by
      intro names
      rw [List.dropPrefix?_eq_some_iff]
      constructor
      · rintro ⟨front, hsplit, hfront⟩
        rw [hsplit, eq_of_beq hfront]
      · exact fun h => ⟨_, h, BEq.rfl⟩
    cases hnames : (candidate root raw).place.names.dropPrefix? (FilePath.parse root).place.names with
    | none =>
      refine iff_of_false (fun h => by cases h) ?_
      rintro ⟨names, -, h, -⟩
      rw [(hdrop names).mpr h] at hnames
      cases hnames
    | some rel =>
      have hrel := (hdrop rel).mp hnames
      show (if rel = [] then none else some (JoinedText.join '/' rel)) = some path ↔ _
      constructor
      · intro h
        split at h
        · cases h
        · next hne => exact ⟨rel, hne, hrel, (Option.some.inj h).symm⟩
      · rintro ⟨names, hne, h, rfl⟩
        obtain rfl := List.append_cancel_left (hrel.symm.trans h)
        exact if_neg hne
  · have hraw : (FilePath.parse (slashed raw)).absolute = true := by
      by_contra hrelative
      exact habsolute (candidate_of_relative (eq_false_of_ne_true hrelative)).1
    have hcandidate : (candidate root raw).absolute = true := (candidate_of_absolute hraw).1
    have hroot : (FilePath.parse root).absolute = false :=
      eq_false_of_ne_true fun h => habsolute (hcandidate.trans h.symm)
    rw [if_neg habsolute, or_iff_right fun h => habsolute h.1, and_iff_right habsolute, hcandidate, hroot]
    have hbase : (FilePath.mk false (FilePath.parse root).place.names).components
        = (FilePath.parse root).place.names := rfl
    rw [hbase]
    by_cases hnames : (FilePath.parse root).place.names = []
    · have hcomponents : (FilePath.mk true (candidate root raw).place.names).components
          = ['/'] :: (candidate root raw).place.names := rfl
      rw [if_pos hnames, and_iff_right hnames]
      simp only [hcomponents]
      rw [if_neg (List.cons_ne_nil _ _), Option.some_inj]
      exact eq_comm
    · rw [if_neg hnames]
      exact iff_of_false (fun h => Option.some_ne_none path h.symm) fun h => hnames h.1

/-! ## The law -/

/-- A path below the root is found again by what is returned for it, if that is not trimmed. -/
theorem accepted_of_names (hne : names ≠ [])
    (habsolute : (candidate root raw).absolute = (FilePath.parse root).absolute)
    (hnames : (candidate root raw).place.names = (FilePath.parse root).place.names ++ names)
    (hups : (candidate root raw).place.ups = (FilePath.parse root).place.ups)
    (htrim : trim (JoinedText.join '/' names) = JoinedText.join '/' names) :
    Accepted root raw (JoinedText.join '/' names) := by
  have hare := isName_of_candidate hnames
  have hparse := parse_join hne hare
  have hplace : (candidate root raw).place
      = { (FilePath.parse root).place with names := (FilePath.parse root).place.names ++ names } := by
    have habsolute' := habsolute
    rw [← place_absolute, ← place_absolute] at habsolute'
    exact Place.ext habsolute' hups hnames
  -- the path is written with slashes, so reading it again replaces nothing
  have hbackslash : '\\' ∉ JoinedText.join '/' names := by
    intro hmem
    rcases mem_join hmem with hslash | ⟨n, hn, hc⟩
    · cases hslash
    · exact backslash_not_mem_slashed raw ((part_of_parse ((sublist_raw hnames).subset hn)).2.2.2 _ hc)
  have hslashed := slashed_eq_self htrim hbackslash
  have hsame : candidate root (JoinedText.join '/' names) = (FilePath.parse root).join ⟨false, names⟩ := by
    rw [candidate, hslashed, hparse]
  refine ⟨by rw [hparse], ?_, ?_, ⟨names, hne, hplace⟩, ?_⟩
  · rw [hparse]
    exact fun h => (hare _ h).ne_dots rfl
  · rw [hparse, place_join_names hare, hplace]
  · refine normalizeRelativePath_eq_some_iff.mpr ⟨?_, .inl ⟨?_, names, hne, ?_, rfl⟩⟩
    · intro hnil
      rw [hslashed] at hnil
      rw [hnil] at hparse
      exact hne (congrArg FilePath.parts hparse).symm
    · rw [hsame]
      rfl
    · rw [hsame, place_join_names hare]

theorem trim_sublist (text : List Char) : (trim text).Sublist text :=
  (List.dropWhile_sublist _).trans (List.rdropWhile_prefix _ text).sublist

/-- What is returned is no longer than what was read, but for an absolute path. -/
theorem length_join_le_of_names
    (h : (candidate root raw).place.names = (FilePath.parse root).place.names ++ names) :
    (JoinedText.join '/' names).length ≤ (trim raw).length := by
  calc (JoinedText.join '/' names).length
      ≤ (JoinedText.join '/' ((slashed raw).splitOn '/')).length :=
        length_join_le ((sublist_raw h).trans List.filter_sublist)
    _ = (slashed raw).length := by rw [join_eq_intercalate, List.intercalate_splitOn]
    _ = (trim raw).length := List.length_map _

theorem trim_eq_of_again (hrelative : (FilePath.parse path).absolute = false)
    (h : normalizeRelativePath root path = some path) : trim path = path := by
  rcases (normalizeRelativePath_eq_some_iff.mp h).2 with ⟨-, names, -, hnames, hpath⟩ | ⟨-, -, hpath⟩
  · refine (trim_sublist path).eq_of_length_le ?_
    have hle := length_join_le_of_names hnames
    rwa [← hpath] at hle
  · -- what is returned for an absolute path begins with a slash
    exfalso
    have hhead : path.head? = some '/' := by
      rw [hpath]
      cases (candidate root path).place.names <;> rfl
    rw [FilePath.parse, hhead] at hrelative
    cases hrelative

/-- What is accepted is what was asked for, inside the root, and stays as it is, exactly when the
path does not come back into a relative root from above it, is not absolute under a root without
names, and leaves no white space at its ends. -/
theorem linksLaw_iff (root raw : List Char) : LinksLaw root raw ↔ KeepsInside root raw := by
  constructor
  · intro h
    refine ⟨fun habsolute hnil => ?_, fun names hne habsolute hnames => ?_⟩
    · have hraw : slashed raw ≠ [] := by
        intro hempty
        refine habsolute (candidate_of_relative ?_).1
        rw [hempty]
        rfl
      have haccepted := h _ (normalizeRelativePath_eq_some_iff.mpr ⟨hraw, .inr ⟨habsolute, hnil, rfl⟩⟩)
      have hrelative := haccepted.relative
      -- what leads elsewhere is written with the root in front, and so is not relative
      have hhead : (JoinedText.join '/' (['/'] :: (candidate root raw).place.names)).head? = some '/' := by
        cases (candidate root raw).place.names <;> rfl
      rw [FilePath.parse, hhead] at hrelative
      cases hrelative
    · have hare := isName_of_candidate hnames
      have hraw : slashed raw ≠ [] := by
        intro hempty
        have hsub := sublist_raw hnames
        rw [hempty] at hsub
        exact hne (List.sublist_nil.mp hsub)
      have haccepted := h _ (normalizeRelativePath_eq_some_iff.mpr
        ⟨hraw, .inl ⟨habsolute, names, hne, hnames, rfl⟩⟩)
      have hsame := haccepted.same
      rw [parse_join hne hare, place_join_names hare] at hsame
      exact ⟨(congrArg Place.ups hsame).symm, trim_eq_of_again haccepted.relative haccepted.again⟩
  · rintro ⟨hroot, hnames⟩ path hpath
    rcases (normalizeRelativePath_eq_some_iff.mp hpath).2 with
      ⟨habsolute, names, hne, hplace, rfl⟩ | ⟨habsolute, hnil, -⟩
    · obtain ⟨hups, htrim⟩ := hnames names hne habsolute hplace
      exact accepted_of_names hne habsolute hplace hups htrim
    · exact absurd hnil (hroot habsolute)

end Root

/-- Under the empty root, a path above it is taken for one below. -/
theorem not_linksLaw_of_parent : ¬LinksLaw [] "../x".toList := by
  intro h
  have haccepted := h "x".toList (by decide +kernel)
  exact absurd haccepted.same (by decide +kernel)

example : normalizeRelativePath "notes".toList "../../notes/x".toList = some "x".toList := by decide +kernel

example : normalizeRelativePath [] "/etc/passwd".toList = some "//etc/passwd".toList := by decide +kernel

end Memory
end Inkentry
