/-
  Inkentry.Context.Budget

  `inkentry context --budget N`: what is shown is packed until the tokens run
  out.  One remainder runs through several passes, the durable kinds first and
  in an order of their own, then the other sections as they stand, then the
  conventions.

  All of it is one packing of one list, the `packingOrder`
  (`packingOrder_applyBudget`), and the law of the budget follows from that.
-/

import Inkentry.Record
import Inkentry.Tokens
import Inkentry.Lib.GreedyPack
import Mathlib.Data.List.Nodup
import Mathlib.Data.List.Perm.Basic
import Mathlib.Data.List.Infix

namespace Inkentry.Context

open GreedyPack

/-! ## The code -/

/-- One detected convention. -/
structure ConventionRecord where
  language : String
  category : String
  description : String
  deriving DecidableEq, Repr

/-- One shown section: a kind and its entries. -/
abbrev Section := String × List Note

def noteTokens (n : Note) : Nat := estimateTokens n.title + estimateTokens n.body

def conventionTokens (c : ConventionRecord) : Nat :=
  estimateTokens c.category + estimateTokens c.description

def KEEP_DURABLE_FIRST : List String := ["decision", "requirement", "handoff", "question", "intent"]

/-- The first section of the kind keeps what fits. -/
def packKind (kind : String) : List Section → Nat → List Section × Nat
  | [], room => ([], room)
  | (k, notes) :: rest, room =>
    if k = kind then
      ((k, (pack noteTokens room notes).1) :: rest, (pack noteTokens room notes).2)
    else ((k, notes) :: (packKind kind rest room).1, (packKind kind rest room).2)

/-- The kinds of a list in turn, each in what the ones before it leave. -/
def packKinds (kinds : List String) (sections : List Section) (room : Nat) :
    List Section × Nat :=
  kinds.foldl (fun s kind => packKind kind s.1 s.2) (sections, room)

/-- Kinds outside `KEEP_DURABLE_FIRST` pack afterwards, in existing order. -/
def packOthers : List Section → Nat → List Section × Nat
  | [], room => ([], room)
  | (k, notes) :: rest, room =>
    if k ∈ KEEP_DURABLE_FIRST then
      ((k, notes) :: (packOthers rest room).1, (packOthers rest room).2)
    else
      ((k, (pack noteTokens room notes).1) ::
          (packOthers rest (pack noteTokens room notes).2).1,
        (packOthers rest (pack noteTokens room notes).2).2)

/-- What is left of the sections and of the conventions, and the number that is
    returned. -/
structure Packed where
  sections : List Section
  conventions : List ConventionRecord
  used : Nat
  deriving DecidableEq, Repr

def applyBudget (sections : List Section) (conventions : List ConventionRecord) (budget : Nat) :
    Packed :=
  let durable := packKinds KEEP_DURABLE_FIRST sections budget
  let others := packOthers durable.1 durable.2
  let last := pack conventionTokens others.2 conventions
  ⟨others.1, last.1, budget - last.2⟩

/-! ## The packing order -/

/-- One thing that is packed. -/
inductive Item where
  | entry (kind : String) (note : Note)
  | convention (record : ConventionRecord)
  deriving DecidableEq, Repr

def itemTokens : Item → Nat
  | .entry _ n => noteTokens n
  | .convention c => conventionTokens c

def kindsOf (sections : List Section) : List String := sections.map Prod.fst

/-- The entries of a kind. -/
def entries (sections : List Section) (kind : String) : List Note :=
  ((sections.find? fun s => s.1 = kind).map Prod.snd).getD []

def otherKinds (sections : List Section) : List String :=
  (kindsOf sections).filter (· ∉ KEEP_DURABLE_FIRST)

/-- The kinds shown, durable ones first. -/
def packingKinds (sections : List Section) : List String :=
  KEEP_DURABLE_FIRST.filter (· ∈ kindsOf sections) ++ otherKinds sections

/-- The entries of some kinds, kind by kind. -/
def itemsOf (kinds : List String) (sections : List Section) : List Item :=
  kinds.flatMap fun kind => (entries sections kind).map (Item.entry kind)

def packingOrder (sections : List Section) (conventions : List ConventionRecord) : List Item :=
  itemsOf (packingKinds sections) sections ++ conventions.map Item.convention

/-- The tokens of everything shown, section by section. -/
def tokensOf (sections : List Section) (conventions : List ConventionRecord) : Nat :=
  total (fun s : Section => total noteTokens s.2) sections + total conventionTokens conventions

/-! ### Entries of a kind -/

variable {sections : List Section} {kinds : List String} {kind : String}

theorem entries_cons_self (k : String) (notes : List Note) (rest : List Section) :
    entries ((k, notes) :: rest) k = notes := by
  rw [entries, List.find?_cons_of_pos (by simp)]
  rfl

theorem entries_cons_of_ne {k kind : String} (h : k ≠ kind) (notes : List Note)
    (rest : List Section) : entries ((k, notes) :: rest) kind = entries rest kind := by
  rw [entries, List.find?_cons_of_neg (by simpa using h), entries]

theorem entries_of_not_mem (h : kind ∉ kindsOf sections) : entries sections kind = [] := by
  induction sections with
  | nil => rfl
  | cons s rest ih =>
    obtain ⟨k, notes⟩ := s
    rw [kindsOf, List.map_cons, List.mem_cons, not_or] at h
    rw [entries_cons_of_ne (Ne.symm h.1)]
    exact ih h.2

theorem eq_of_entries {sections sections' : List Section}
    (hkinds : kindsOf sections' = kindsOf sections) (hdistinct : (kindsOf sections).Nodup)
    (h : ∀ kind ∈ kindsOf sections, entries sections' kind = entries sections kind) :
    sections' = sections := by
  induction sections generalizing sections' with
  | nil => exact List.map_eq_nil_iff.mp hkinds
  | cons s rest ih =>
    obtain ⟨k, notes⟩ := s
    cases sections' with
    | nil => exact absurd hkinds (by simp [kindsOf])
    | cons s' rest' =>
      obtain ⟨k', notes'⟩ := s'
      obtain ⟨hk, hrest⟩ := List.cons.inj hkinds
      obtain ⟨hfresh, hdistinctRest⟩ := List.nodup_cons.mp hdistinct
      have hk : k' = k := hk
      subst hk
      have hhead := h k' (List.mem_cons_self ..)
      rw [entries_cons_self, entries_cons_self] at hhead
      have htail : rest' = rest := by
        refine ih hrest hdistinctRest fun kind hkind => ?_
        have hne : k' ≠ kind := fun heq => hfresh (heq ▸ hkind)
        have := h kind (List.mem_cons_of_mem _ hkind)
        rwa [entries_cons_of_ne hne, entries_cons_of_ne hne] at this
      rw [hhead, htail]

theorem itemsOf_congr {sections sections' : List Section}
    (h : ∀ kind ∈ kinds, entries sections' kind = entries sections kind) :
    itemsOf kinds sections' = itemsOf kinds sections := by
  induction kinds with
  | nil => rfl
  | cons kind rest ih =>
    rw [itemsOf, itemsOf, List.flatMap_cons, List.flatMap_cons, h kind (List.mem_cons_self ..)]
    exact congrArg _ (ih fun k hk => h k (List.mem_cons_of_mem _ hk))

theorem itemsOf_cons (kind : String) (kinds : List String) (sections : List Section) :
    itemsOf (kind :: kinds) sections =
      (entries sections kind).map (Item.entry kind) ++ itemsOf kinds sections := by
  rw [itemsOf, List.flatMap_cons, itemsOf]

theorem itemsOf_filter_shown (kinds : List String) (sections : List Section) :
    itemsOf (kinds.filter (· ∈ kindsOf sections)) sections = itemsOf kinds sections := by
  induction kinds with
  | nil => rfl
  | cons kind rest ih =>
    by_cases hshown : kind ∈ kindsOf sections
    · rw [List.filter_cons_of_pos (by simpa using hshown), itemsOf_cons, itemsOf_cons, ih]
    · rw [List.filter_cons_of_neg (by simpa using hshown), itemsOf_cons, ih,
        entries_of_not_mem hshown, List.map_nil, List.nil_append]

theorem packingKinds_nodup (h : (kindsOf sections).Nodup) : (packingKinds sections).Nodup := by
  have hdurable : KEEP_DURABLE_FIRST.Nodup := by decide
  refine (hdurable.filter _).append (h.filter _) fun kind hleft hright => ?_
  have hin := (List.mem_filter.mp hleft).1
  have hout := (List.mem_filter.mp hright).2
  exact absurd hin (by simpa using hout)

theorem mem_packingKinds : kind ∈ packingKinds sections ↔ kind ∈ kindsOf sections := by
  rw [packingKinds, otherKinds, List.mem_append, List.mem_filter, List.mem_filter]
  by_cases hdurable : kind ∈ KEEP_DURABLE_FIRST
  · simp [hdurable]
  · simp [hdurable]

theorem packingKinds_perm (h : (kindsOf sections).Nodup) :
    (packingKinds sections).Perm (kindsOf sections) :=
  (List.perm_ext_iff_of_nodup (packingKinds_nodup h) h).mpr fun _ => mem_packingKinds

/-! ## One kind -/

theorem kindsOf_packKind (kind : String) (sections : List Section) (room : Nat) :
    kindsOf (packKind kind sections room).1 = kindsOf sections := by
  induction sections with
  | nil => rfl
  | cons s rest ih =>
    obtain ⟨k, notes⟩ := s
    by_cases hk : k = kind
    · rw [packKind, if_pos hk]
      rfl
    · rw [packKind, if_neg hk]
      exact congrArg (k :: ·) ih

theorem entries_packKind_self (kind : String) (sections : List Section) (room : Nat) :
    entries (packKind kind sections room).1 kind
      = (pack noteTokens room (entries sections kind)).1 := by
  induction sections with
  | nil => rfl
  | cons s rest ih =>
    obtain ⟨k, notes⟩ := s
    by_cases hk : k = kind
    · subst hk
      rw [packKind, if_pos rfl, entries_cons_self, entries_cons_self]
    · rw [packKind, if_neg hk, entries_cons_of_ne hk, entries_cons_of_ne hk]
      exact ih

theorem entries_packKind_of_ne {kind other : String} (h : other ≠ kind) (sections : List Section)
    (room : Nat) : entries (packKind kind sections room).1 other = entries sections other := by
  induction sections with
  | nil => rfl
  | cons s rest ih =>
    obtain ⟨k, notes⟩ := s
    by_cases hk : k = kind
    · rw [packKind, if_pos hk, entries_cons_of_ne (by rw [hk]; exact h.symm),
        entries_cons_of_ne (by rw [hk]; exact h.symm)]
    · rw [packKind, if_neg hk]
      by_cases hother : k = other
      · rw [hother, entries_cons_self, entries_cons_self]
      · rw [entries_cons_of_ne hother, entries_cons_of_ne hother]
        exact ih

theorem packKind_room (kind : String) (sections : List Section) (room : Nat) :
    (packKind kind sections room).2 = (pack noteTokens room (entries sections kind)).2 := by
  induction sections with
  | nil => rfl
  | cons s rest ih =>
    obtain ⟨k, notes⟩ := s
    by_cases hk : k = kind
    · subst hk
      rw [packKind, if_pos rfl, entries_cons_self]
    · rw [packKind, if_neg hk, entries_cons_of_ne hk]
      exact ih

theorem pack_entries (kind : String) (room : Nat) (notes : List Note) :
    pack itemTokens room (notes.map (Item.entry kind))
      = ((pack noteTokens room notes).1.map (Item.entry kind), (pack noteTokens room notes).2) :=
  pack_map itemTokens (Item.entry kind) room notes

/-! ## The passes -/

variable {k : String}

theorem packKinds_cons (kind : String) (kinds : List String) (sections : List Section)
    (room : Nat) : packKinds (kind :: kinds) sections room =
      packKinds kinds (packKind kind sections room).1 (packKind kind sections room).2 := rfl

theorem kindsOf_packKinds (kinds : List String) (sections : List Section) (room : Nat) :
    kindsOf (packKinds kinds sections room).1 = kindsOf sections := by
  induction kinds generalizing sections room with
  | nil => rfl
  | cons kind rest ih => rw [packKinds_cons, ih, kindsOf_packKind]

theorem entries_packKinds_of_not_mem {other : String} (h : other ∉ kinds) (sections : List Section)
    (room : Nat) : entries (packKinds kinds sections room).1 other = entries sections other := by
  induction kinds generalizing sections room with
  | nil => rfl
  | cons kind rest ih =>
    rw [List.mem_cons, not_or] at h
    rw [packKinds_cons, ih h.2, entries_packKind_of_ne h.1]

theorem itemsOf_packKinds (h : kinds.Nodup) (sections : List Section) (room : Nat) :
    (itemsOf kinds (packKinds kinds sections room).1, (packKinds kinds sections room).2)
      = pack itemTokens room (itemsOf kinds sections) := by
  induction kinds generalizing sections room with
  | nil => rfl
  | cons kind rest ih =>
    obtain ⟨hfresh, hdistinct⟩ := List.nodup_cons.mp h
    have hne : ∀ k ∈ rest, k ≠ kind := fun k hk heq => hfresh (heq ▸ hk)
    have hhead : entries (packKinds rest (packKind kind sections room).1
        (packKind kind sections room).2).1 kind
          = (pack noteTokens room (entries sections kind)).1 := by
      rw [entries_packKinds_of_not_mem hfresh, entries_packKind_self]
    -- what the first kind leaves untouched is what the rest of the run sees
    have hrest : itemsOf rest (packKind kind sections room).1 = itemsOf rest sections :=
      itemsOf_congr fun k hk => entries_packKind_of_ne (hne k hk) sections room
    have hrun := ih hdistinct (packKind kind sections room).1 (packKind kind sections room).2
    rw [hrest, packKind_room] at hrun
    rw [packKinds_cons, itemsOf_cons, itemsOf_cons, pack_append, pack_entries, hhead, packKind_room,
      ← hrun]

theorem kindsOf_packOthers (sections : List Section) (room : Nat) :
    kindsOf (packOthers sections room).1 = kindsOf sections := by
  induction sections generalizing room with
  | nil => rfl
  | cons s rest ih =>
    obtain ⟨k, notes⟩ := s
    by_cases hdurable : k ∈ KEEP_DURABLE_FIRST
    · rw [packOthers, if_pos hdurable]
      exact congrArg (k :: ·) (ih room)
    · rw [packOthers, if_neg hdurable]
      exact congrArg (k :: ·) (ih _)

theorem entries_packOthers_of_durable (h : kind ∈ KEEP_DURABLE_FIRST) (sections : List Section)
    (room : Nat) : entries (packOthers sections room).1 kind = entries sections kind := by
  induction sections generalizing room with
  | nil => rfl
  | cons s rest ih =>
    obtain ⟨k, notes⟩ := s
    by_cases hdurable : k ∈ KEEP_DURABLE_FIRST
    · rw [packOthers, if_pos hdurable]
      by_cases hk : k = kind
      · rw [hk, entries_cons_self, entries_cons_self]
      · rw [entries_cons_of_ne hk, entries_cons_of_ne hk]
        exact ih room
    · have hk : k ≠ kind := fun heq => hdurable (heq ▸ h)
      rw [packOthers, if_neg hdurable, entries_cons_of_ne hk, entries_cons_of_ne hk]
      exact ih _

theorem otherKinds_cons_of_durable (h : k ∈ KEEP_DURABLE_FIRST) (notes : List Note)
    (rest : List Section) : otherKinds ((k, notes) :: rest) = otherKinds rest := by
  rw [otherKinds, kindsOf, List.map_cons, List.filter_cons_of_neg (by simpa using h)]
  rfl

theorem otherKinds_cons_of_not_durable (h : k ∉ KEEP_DURABLE_FIRST) (notes : List Note)
    (rest : List Section) : otherKinds ((k, notes) :: rest) = k :: otherKinds rest := by
  rw [otherKinds, kindsOf, List.map_cons, List.filter_cons_of_pos (by simpa using h)]
  rfl

theorem itemsOf_cons_of_fresh (h : k ∉ kinds) (notes : List Note)
    (rest : List Section) : itemsOf kinds ((k, notes) :: rest) = itemsOf kinds rest :=
  itemsOf_congr fun kind hkind =>
    entries_cons_of_ne (fun heq : k = kind => h (heq ▸ hkind)) notes rest

theorem itemsOf_packOthers (h : (kindsOf sections).Nodup) (room : Nat) :
    (itemsOf (otherKinds sections) (packOthers sections room).1, (packOthers sections room).2)
      = pack itemTokens room (itemsOf (otherKinds sections) sections) := by
  induction sections generalizing room with
  | nil => rfl
  | cons s rest ih =>
    obtain ⟨k, notes⟩ := s
    obtain ⟨hfresh, hdistinct⟩ := List.nodup_cons.mp h
    have hother : k ∉ otherKinds rest := fun hk => hfresh (List.mem_of_mem_filter hk)
    by_cases hdurable : k ∈ KEEP_DURABLE_FIRST
    · rw [packOthers, if_pos hdurable, otherKinds_cons_of_durable hdurable,
        itemsOf_cons_of_fresh hother, itemsOf_cons_of_fresh hother]
      exact ih hdistinct room
    · have hrun := ih hdistinct (pack noteTokens room notes).2
      rw [packOthers, if_neg hdurable, otherKinds_cons_of_not_durable hdurable, itemsOf_cons,
        itemsOf_cons, entries_cons_self, entries_cons_self, itemsOf_cons_of_fresh hother,
        itemsOf_cons_of_fresh hother, pack_append, pack_entries, ← hrun]

theorem packingOrder_eq (sections : List Section) (conventions : List ConventionRecord) :
    packingOrder sections conventions = itemsOf KEEP_DURABLE_FIRST sections
      ++ (itemsOf (otherKinds sections) sections ++ conventions.map Item.convention) := by
  have hkinds : itemsOf (packingKinds sections) sections
      = itemsOf KEEP_DURABLE_FIRST sections ++ itemsOf (otherKinds sections) sections := by
    rw [packingKinds, itemsOf, List.flatMap_append]
    exact congrArg (· ++ _) (itemsOf_filter_shown KEEP_DURABLE_FIRST sections)
  rw [packingOrder, hkinds, List.append_assoc]

theorem kindsOf_applyBudget (sections : List Section) (conventions : List ConventionRecord)
    (budget : Nat) :
    kindsOf (applyBudget sections conventions budget).sections = kindsOf sections := by
  rw [applyBudget]
  dsimp only
  rw [kindsOf_packOthers, kindsOf_packKinds]

/-- The whole budget is one packing, in the packing order. -/
theorem packingOrder_applyBudget (h : (kindsOf sections).Nodup)
    (conventions : List ConventionRecord) (budget : Nat) :
    packingOrder (applyBudget sections conventions budget).sections
        (applyBudget sections conventions budget).conventions
      = (pack itemTokens budget (packingOrder sections conventions)).1
    ∧ (applyBudget sections conventions budget).used
      = budget - (pack itemTokens budget (packingOrder sections conventions)).2 := by
  have hdurable := itemsOf_packKinds (show KEEP_DURABLE_FIRST.Nodup by decide) sections budget
  set durable := packKinds KEEP_DURABLE_FIRST sections budget with hdurableDef
  have hkinds : kindsOf durable.1 = kindsOf sections := kindsOf_packKinds _ sections budget
  have hdistinct : (kindsOf durable.1).Nodup := by rw [hkinds]; exact h
  have hothers := itemsOf_packOthers hdistinct durable.2
  set others := packOthers durable.1 durable.2 with hothersDef
  have hotherKinds : otherKinds durable.1 = otherKinds sections := by
    rw [otherKinds, otherKinds, hkinds]
  have hfinalKinds : otherKinds others.1 = otherKinds sections := by
    rw [otherKinds, otherKinds, hothersDef, kindsOf_packOthers, hkinds]
  -- neither pass touches what belongs to the other one
  have hothersSee : itemsOf (otherKinds sections) durable.1
      = itemsOf (otherKinds sections) sections := by
    refine itemsOf_congr fun kind hkind => ?_
    have hout := (List.mem_filter.mp hkind).2
    exact entries_packKinds_of_not_mem (by simpa using hout) sections budget
  have hdurableStays : itemsOf KEEP_DURABLE_FIRST others.1
      = itemsOf KEEP_DURABLE_FIRST durable.1 :=
    itemsOf_congr fun kind hkind => entries_packOthers_of_durable hkind durable.1 durable.2
  rw [hotherKinds, hothersSee] at hothers
  have hall : pack itemTokens budget (packingOrder sections conventions)
      = (itemsOf KEEP_DURABLE_FIRST durable.1
          ++ (itemsOf (otherKinds sections) others.1
            ++ (pack conventionTokens others.2 conventions).1.map Item.convention),
        (pack conventionTokens others.2 conventions).2) := by
    rw [packingOrder_eq, pack_append, pack_append, ← hdurable, ← hothers,
      pack_map itemTokens Item.convention others.2 conventions]
    rfl
  have hresult : applyBudget sections conventions budget
      = ⟨others.1, (pack conventionTokens others.2 conventions).1,
          budget - (pack conventionTokens others.2 conventions).2⟩ := rfl
  rw [hall, hresult, packingOrder_eq, hfinalKinds, hdurableStays]
  exact ⟨rfl, rfl⟩

/-! ## Tokens -/

theorem total_itemsOf (kinds : List String) (sections : List Section) :
    total itemTokens (itemsOf kinds sections)
      = total (fun kind => total noteTokens (entries sections kind)) kinds := by
  induction kinds with
  | nil => rfl
  | cons kind rest ih =>
    have hhead : total itemTokens ((entries sections kind).map (Item.entry kind))
        = total noteTokens (entries sections kind) :=
      total_map itemTokens (Item.entry kind) (entries sections kind)
    rw [itemsOf_cons, total_append, total_cons, ih, hhead]

theorem total_kindsOf (h : (kindsOf sections).Nodup) :
    total (fun kind => total noteTokens (entries sections kind)) (kindsOf sections)
      = total (fun s : Section => total noteTokens s.2) sections := by
  induction sections with
  | nil => rfl
  | cons s rest ih =>
    obtain ⟨k, notes⟩ := s
    obtain ⟨hfresh, hdistinct⟩ := List.nodup_cons.mp h
    have hrest : total (fun kind => total noteTokens (entries ((k, notes) :: rest) kind))
        (kindsOf rest) = total (fun kind => total noteTokens (entries rest kind)) (kindsOf rest) := by
      refine congrArg List.sum (List.map_congr_left fun kind hkind => ?_)
      rw [entries_cons_of_ne fun heq : k = kind => hfresh (heq ▸ hkind)]
    rw [total_cons, ← ih hdistinct, ← hrest, kindsOf, List.map_cons, total_cons, entries_cons_self]
    rfl

theorem total_packingOrder (h : (kindsOf sections).Nodup) (conventions : List ConventionRecord) :
    total itemTokens (packingOrder sections conventions) = tokensOf sections conventions := by
  have hperm : total (fun kind => total noteTokens (entries sections kind)) (packingKinds sections)
      = total (fun kind => total noteTokens (entries sections kind)) (kindsOf sections) :=
    ((packingKinds_perm h).map _).sum_eq
  have hconventions : total itemTokens (conventions.map Item.convention)
      = total conventionTokens conventions := total_map itemTokens Item.convention conventions
  rw [packingOrder, total_append, total_itemsOf, hperm, total_kindsOf h, hconventions, tokensOf]

/-! ## What is kept of a kind -/

def noteOf (kind : String) : Item → Option Note
  | .entry k n => if k = kind then some n else none
  | .convention _ => none

/-- The entries of a kind among the items. -/
def keptOf (kind : String) (items : List Item) : List Note := items.filterMap (noteOf kind)

theorem keptOf_append (kind : String) (items items' : List Item) :
    keptOf kind (items ++ items') = keptOf kind items ++ keptOf kind items' :=
  List.filterMap_append

theorem keptOf_map_self (kind : String) (notes : List Note) :
    keptOf kind (notes.map (Item.entry kind)) = notes := by
  rw [keptOf, List.filterMap_map]
  refine List.filterMap_eq_map_iff_forall_eq_some.mpr ?_ |>.trans (List.map_id notes)
  intro n _
  exact if_pos rfl

theorem keptOf_map_of_ne {kind k : String} (h : k ≠ kind) (notes : List Note) :
    keptOf kind (notes.map (Item.entry k)) = [] := by
  rw [keptOf, List.filterMap_map, List.filterMap_eq_nil_iff]
  intro n _
  exact if_neg h

theorem keptOf_conventions (kind : String) (conventions : List ConventionRecord) :
    keptOf kind (conventions.map Item.convention) = [] := by
  rw [keptOf, List.filterMap_map, List.filterMap_eq_nil_iff]
  intro c _
  rfl

theorem keptOf_itemsOf_of_not_mem (h : kind ∉ kinds)
    (sections : List Section) : keptOf kind (itemsOf kinds sections) = [] := by
  induction kinds with
  | nil => rfl
  | cons k rest ih =>
    rw [List.mem_cons, not_or] at h
    rw [itemsOf_cons, keptOf_append, keptOf_map_of_ne (Ne.symm h.1), ih h.2, List.nil_append]

theorem keptOf_itemsOf (h : kinds.Nodup) (hk : kind ∈ kinds)
    (sections : List Section) : keptOf kind (itemsOf kinds sections) = entries sections kind := by
  induction kinds with
  | nil => exact absurd hk List.not_mem_nil
  | cons k rest ih =>
    obtain ⟨hfresh, hdistinct⟩ := List.nodup_cons.mp h
    rw [itemsOf_cons, keptOf_append]
    by_cases hself : k = kind
    · subst hself
      rw [keptOf_map_self, keptOf_itemsOf_of_not_mem hfresh, List.append_nil]
    · have hin : kind ∈ rest := (List.mem_cons.mp hk).resolve_left (Ne.symm hself)
      rw [keptOf_map_of_ne hself, List.nil_append, ih hdistinct hin]

theorem keptOf_of_sublist {items items' : List Item} (h : items'.Sublist items)
    (hnil : keptOf kind items = []) : keptOf kind items' = [] := by
  have hsub := h.filterMap (noteOf kind)
  rw [show items.filterMap (noteOf kind) = [] from hnil] at hsub
  exact List.sublist_nil.mp hsub

theorem keptOf_packingOrder (h : (kindsOf sections).Nodup) (hk : kind ∈ kindsOf sections)
    (conventions : List ConventionRecord) :
    keptOf kind (packingOrder sections conventions) = entries sections kind := by
  rw [packingOrder, keptOf_append, keptOf_conventions, List.append_nil,
    keptOf_itemsOf (packingKinds_nodup h) (mem_packingKinds.mpr hk)]

/-- What is kept of a kind is decided by the kinds up to it. -/
theorem entries_applyBudget (h : (kindsOf sections).Nodup) {front back : List String}
    (hfront : packingKinds sections = front ++ back) (hk : kind ∈ front)
    (conventions : List ConventionRecord) (budget : Nat) :
    entries (applyBudget sections conventions budget).sections kind
      = keptOf kind (pack itemTokens budget (itemsOf front sections)).1 := by
  have hnodup : (front ++ back).Nodup := hfront ▸ packingKinds_nodup h
  have hlater : kind ∉ back := fun hback => List.disjoint_of_nodup_append hnodup hk hback
  have hshown : kind ∈ kindsOf sections :=
    mem_packingKinds.mp (hfront ▸ List.mem_append_left back hk)
  have hkinds := kindsOf_applyBudget sections conventions budget
  -- everything after the front is of another kind
  have htail : keptOf kind (itemsOf back sections ++ conventions.map Item.convention) = [] := by
    rw [keptOf_append, keptOf_itemsOf_of_not_mem hlater, keptOf_conventions, List.append_nil]
  have horder : packingOrder sections conventions
      = itemsOf front sections ++ (itemsOf back sections ++ conventions.map Item.convention) := by
    rw [packingOrder, hfront, itemsOf, List.flatMap_append, List.append_assoc, itemsOf, itemsOf]
  rw [← keptOf_packingOrder (by rw [hkinds]; exact h) (by rw [hkinds]; exact hshown)
      (applyBudget sections conventions budget).conventions,
    (packingOrder_applyBudget h conventions budget).1, horder, pack_append, keptOf_append,
    keptOf_of_sublist (pack_sublist itemTokens _ _) htail, List.append_nil]

/-! ## The law of the budget -/

/-- A section that lost some of its entries. -/
def Thinned (kept s : Section) : Prop := kept.1 = s.1 ∧ kept.2.Sublist s.2

theorem Thinned.refl (s : Section) : Thinned s s := ⟨rfl, List.Sublist.refl _⟩

theorem thinned_packKind (kind : String) (sections : List Section) (room : Nat) :
    List.Forall₂ Thinned (packKind kind sections room).1 sections := by
  induction sections with
  | nil => exact List.Forall₂.nil
  | cons s rest ih =>
    obtain ⟨k, notes⟩ := s
    by_cases hk : k = kind
    · rw [packKind, if_pos hk]
      exact List.Forall₂.cons ⟨rfl, pack_sublist noteTokens room notes⟩
        (List.forall₂_same.mpr fun s _ => Thinned.refl s)
    · rw [packKind, if_neg hk]
      exact List.Forall₂.cons (Thinned.refl _) ih

theorem thinned_trans {sections sections' sections'' : List Section}
    (h : List.Forall₂ Thinned sections'' sections') (h' : List.Forall₂ Thinned sections' sections) :
    List.Forall₂ Thinned sections'' sections := by
  induction h generalizing sections with
  | nil => exact h'
  | cons hhead _ ih =>
    cases h' with
    | cons hhead' hrest' =>
      exact List.Forall₂.cons ⟨hhead.1.trans hhead'.1, hhead.2.trans hhead'.2⟩ (ih hrest')

theorem thinned_packKinds (kinds : List String) (sections : List Section) (room : Nat) :
    List.Forall₂ Thinned (packKinds kinds sections room).1 sections := by
  induction kinds generalizing sections room with
  | nil => exact List.forall₂_same.mpr fun s _ => Thinned.refl s
  | cons kind rest ih =>
    rw [packKinds_cons]
    exact thinned_trans (ih _ _) (thinned_packKind kind sections room)

theorem thinned_packOthers (sections : List Section) (room : Nat) :
    List.Forall₂ Thinned (packOthers sections room).1 sections := by
  induction sections generalizing room with
  | nil => exact List.Forall₂.nil
  | cons s rest ih =>
    obtain ⟨k, notes⟩ := s
    by_cases hdurable : k ∈ KEEP_DURABLE_FIRST
    · rw [packOthers, if_pos hdurable]
      exact List.Forall₂.cons (Thinned.refl _) (ih room)
    · rw [packOthers, if_neg hdurable]
      exact List.Forall₂.cons ⟨rfl, pack_sublist noteTokens room notes⟩ (ih _)

/-- What the budget promises of sections, conventions and a number of tokens. -/
structure BudgetLaw (sections : List Section) (conventions : List ConventionRecord)
    (budget : Nat) : Prop where
  /-- every section keeps its kind, and its kept entries their order -/
  sections_thinned :
    List.Forall₂ Thinned (applyBudget sections conventions budget).sections sections
  conventions_sublist :
    (applyBudget sections conventions budget).conventions.Sublist conventions
  used_eq : (applyBudget sections conventions budget).used
    = tokensOf (applyBudget sections conventions budget).sections
        (applyBudget sections conventions budget).conventions
  used_le : (applyBudget sections conventions budget).used ≤ budget
  /-- one thing is kept or dropped by what the kept ones before it leave -/
  dropped : ∀ before item after, packingOrder sections conventions = before ++ item :: after →
    ∃ keptBefore keptAfter, keptBefore.Sublist before ∧ keptAfter.Sublist after
      ∧ packingOrder (applyBudget sections conventions budget).sections
          (applyBudget sections conventions budget).conventions
        = keptBefore ++ (if total itemTokens keptBefore + itemTokens item ≤ budget then [item]
            else []) ++ keptAfter
  /-- whatever stands behind the kinds of `front` decides nothing about them -/
  independent : ∀ front sections' conventions', (kindsOf sections').Nodup →
    front <+: packingKinds sections → front <+: packingKinds sections' →
    (∀ kind ∈ front, entries sections' kind = entries sections kind) →
    ∀ kind ∈ front, entries (applyBudget sections' conventions' budget).sections kind
      = entries (applyBudget sections conventions budget).sections kind
  fits : tokensOf sections conventions ≤ budget →
    (applyBudget sections conventions budget).sections = sections
      ∧ (applyBudget sections conventions budget).conventions = conventions

theorem conventions_of_packingOrder_eq {sections sections' : List Section}
    {conventions conventions' : List ConventionRecord}
    (h : packingOrder sections' conventions' = packingOrder sections conventions)
    (hlength : (itemsOf (packingKinds sections') sections').length
      = (itemsOf (packingKinds sections) sections).length) : conventions' = conventions := by
  have htail := (List.append_inj h hlength).2
  refine List.map_injective_iff.mpr ?_ htail
  intro c c' hc
  exact Item.convention.inj hc

/-- Packing sections of distinct kinds under a budget keeps the law. -/
theorem budgetLaw {sections : List Section} (h : (kindsOf sections).Nodup)
    (conventions : List ConventionRecord) (budget : Nat) :
    BudgetLaw sections conventions budget := by
  have hkinds := kindsOf_applyBudget sections conventions budget
  have hkept : (kindsOf (applyBudget sections conventions budget).sections).Nodup := by
    rw [hkinds]
    exact h
  obtain ⟨horder, hused⟩ := packingOrder_applyBudget h conventions budget
  have hsum := total_pack itemTokens budget (packingOrder sections conventions)
  -- everything is packed in one order, so the sum over the report is the sum of the pack
  rw [← horder, total_packingOrder hkept] at hsum
  refine ⟨?thinned, ?conventions, ?usedEq, ?usedLe, ?dropped, ?independent, ?fits⟩
  case thinned =>
    exact thinned_trans (thinned_packOthers _ _) (thinned_packKinds _ sections budget)
  case conventions => exact pack_sublist conventionTokens _ conventions
  case usedEq =>
    rw [hused]
    omega
  case usedLe =>
    rw [hused]
    omega
  case dropped =>
    intro before item after hsplit
    obtain ⟨keptAfter, hafter, heq⟩ := pack_split itemTokens budget before item after
    refine ⟨_, keptAfter, pack_sublist itemTokens budget before, hafter, ?_⟩
    rw [horder, hsplit, heq]
  -- the budget of a kind depends only on the sections before it
  case independent =>
    rintro front sections' conventions' hdistinct ⟨back, hback⟩ ⟨back', hback'⟩ hsame kind hkind
    rw [entries_applyBudget h hback.symm hkind, entries_applyBudget hdistinct hback'.symm hkind,
      itemsOf_congr hsame]
  case fits =>
    intro hfits
    rw [← total_packingOrder h] at hfits
    rw [pack_of_total_le itemTokens hfits] at horder
    have hsections : (applyBudget sections conventions budget).sections = sections := by
      refine eq_of_entries hkinds h fun kind hkind => ?_
      rw [← keptOf_packingOrder hkept (by rw [hkinds]; exact hkind)
        (applyBudget sections conventions budget).conventions, horder,
        keptOf_packingOrder h hkind]
    refine ⟨hsections, conventions_of_packingOrder_eq horder ?_⟩
    rw [hsections]

/-- An active entry with nothing but a title. -/
def titled (token kind title : String) : Note where
  id := ⟨token⟩
  entityId := token
  kind := kind
  title := title
  body := ""
  tags := []
  linkedFiles := []
  createdAt := 0
  status := "active"
  supersededBy := none
  sourceRef := none
  validAt := none
  invalidAt := none
  remoteId := none
  origin := none

/-- A question stands before the decisions but is packed after them. -/
theorem budgetLaw_of_two_kinds :
    BudgetLaw [("question", [titled "1" "question" "why"]),
      ("decision", [titled "2" "decision" "because", titled "3" "decision" "so"])] [] 4 :=
  budgetLaw (by decide) [] 4

example : (applyBudget [("question", [titled "1" "question" "why"]),
      ("decision", [titled "2" "decision" "because", titled "3" "decision" "so"])] [] 4).sections
    = [("question", []), ("decision", [titled "2" "decision" "because",
        titled "3" "decision" "so"])] := by decide

end Inkentry.Context
