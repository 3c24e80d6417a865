import FrontendSync.Proofs.Drift.InSync

/-!
# Lines and counterparts

Each line of a report stands for an entry, or for the shape of a group, that has no equal
counterpart under the same name on the other side.  The record and the module are treated alike:
what is added on the way from one to the other is what is removed on the way back.
-/

namespace FrontendSync.Drift

open EnumRecord FrontendSync.Module

/-! ## Sides -/

namespace Place

/-- The name of the group that stands at a place; the enum itself is no group. -/
def group? : Place → Option String
  | cases => none
  | group name _ => some name

end Place

namespace Side

/-- The group of a side; its shape does not tell it from others. -/
def group? (s : Side) : Option String := s.place.group?

/-- The shape of a group, if the other side is a group of another shape. -/
def shapeTexts (s other : Side) : List String :=
  match s.place, other.place with
  | .group name shape, .group _ shape' => if shape' = shape then [] else [shapeText name shape]
  | _, _ => []

/-- The entries that are missing on the other side or have another value there. -/
def entryTexts (s other : Side) : List String :=
  (s.entries.filter fun e ↦ Ordered.get? e.1 other.entries ≠ some e.2).map fun e ↦
    entryText s.place e.1 e.2

/-- What a side has and the other one has not. -/
def texts (s other : Side) : List String := s.shapeTexts other ++ s.entryTexts other

end Side

/-- The enum and the groups of a record. -/
def sidesOf (r : EnumRecord) : List Side :=
  ⟨.cases, caseEntries r⟩ :: r.groups.map (groupSide r.name)

/-- The enum and the groups of a module. -/
def exportSides : List Export → List Side
  | [] => []
  | first :: more => ⟨.cases, first.entries⟩ :: more.map exportSide

/-- The side of a group, or of the enum, which may be missing. -/
def sideAt (sides : List Side) (group : Option String) : Side :=
  (sides.find? (·.group? = group)).getD nothing

/-- What a side has that its counterpart among others has not. -/
def changes (others : List Side) (s : Side) : List String := s.texts (sideAt others s.group?)

/-- No group is there twice, and no key is twice in one of the sides. -/
structure HaveDistinctKeys (sides : List Side) : Prop where
  groups : (sides.map Side.group?).Nodup
  entries : ∀ s ∈ sides, (Ordered.keys s.entries).Nodup

/-- The lines for the enum or for a group: what the record has is added, and what the module has is
removed. -/
def linesAt (fresh stale : List Side) (group : Option String) : List Line :=
  ((sideAt fresh group).texts (sideAt stale group)).map .added
    ++ ((sideAt stale group).texts (sideAt fresh group)).map .removed

/-- All groups, first those of the record and then those that only the module has. -/
def groupOrder (fresh stale : List Side) : List (Option String) :=
  fresh.map Side.group? ++ (stale.map Side.group?).filter (· ∉ fresh.map Side.group?)

/-! ## Entries -/

/-- The text for a key of a side, unless the other side has the same entry. -/
def Side.keyText (s other : Side) (k : String) : List String :=
  match Ordered.get? k s.entries with
  | none => []
  | some v => if Ordered.get? k other.entries ≠ some v then [entryText s.place k v] else []

theorem Side.keyText_of_notMem {s other : Side} {k : String} (h : k ∉ Ordered.keys s.entries) :
    s.keyText other k = [] := by
  rw [keyText, Ordered.get?_eq_none_iff.mpr h]

theorem Side.entryTexts_eq {s : Side} (hs : (Ordered.keys s.entries).Nodup) (other : Side) :
    s.entryTexts other = (Ordered.keys s.entries).flatMap (s.keyText other) := by
  rw [entryTexts, List.map_eq_flatMap, flatMap_filter, Ordered.keys, List.flatMap_map]
  refine List.flatMap_congr fun e he ↦ ?_
  simp only [keyText, Ordered.get?_eq_some_of_mem hs he, decide_eq_true_eq]

section Entries

variable {a b : Side}

/-- The lines for a key of either side. -/
def keyLines (a b : Side) (k : String) : List Line :=
  (a.keyText b k).map .added ++ (b.keyText a k).map .removed

theorem freshLines_eq (ha : (Ordered.keys a.entries).Nodup) {e : String × Value}
    (he : e ∈ a.entries) : freshLines a b e = keyLines a b e.1 := by
  have hvalue := Ordered.get?_eq_some_of_mem ha he
  rw [freshLines, keyLines, Side.keyText, Side.keyText, hvalue]
  cases hold : Ordered.get? e.1 b.entries with
  | none => rfl
  | some old =>
    by_cases heq : old = e.2
    · simp [heq]
    · simp [heq, Ne.symm heq]

theorem staleLines_eq (hb : (Ordered.keys b.entries).Nodup) {e : String × Value}
    (he : e ∈ b.entries) :
    staleLines a b e = if e.1 ∉ Ordered.keys a.entries then keyLines a b e.1 else [] := by
  have hvalue := Ordered.get?_eq_some_of_mem hb he
  by_cases h : e.1 ∈ Ordered.keys a.entries
  · have hcontains : Ordered.contains e.1 a.entries = true :=
      Option.isSome_iff_ne_none.mpr (mt Ordered.get?_eq_none_iff.mp (not_not.mpr h))
    rw [staleLines, if_pos hcontains, if_neg (not_not.mpr h)]
  · have hnone := Ordered.get?_eq_none_iff.mpr h
    rw [if_pos h, keyLines, Side.keyText, Side.keyText, hnone, hvalue]
    simp [staleLines, Ordered.contains, hnone]

/-- The keys of the record come first, and then those that only the module has. -/
theorem entryLines_eq (ha : (Ordered.keys a.entries).Nodup)
    (hb : (Ordered.keys b.entries).Nodup) :
    entryLines a b = (Ordered.keys a.entries
      ++ (Ordered.keys b.entries).filter (· ∉ Ordered.keys a.entries)).flatMap (keyLines a b) := by
  have hfresh : a.entries.flatMap (freshLines a b)
      = (Ordered.keys a.entries).flatMap (keyLines a b) := by
    rw [Ordered.keys, List.flatMap_map]
    exact List.flatMap_congr fun e he ↦ freshLines_eq ha he
  have hstale : b.entries.flatMap (staleLines a b)
      = ((Ordered.keys b.entries).filter (· ∉ Ordered.keys a.entries)).flatMap
          (keyLines a b) := by
    have hkeys : Ordered.keys b.entries = b.entries.map Prod.fst := rfl
    rw [flatMap_filter, hkeys, List.flatMap_map]
    refine List.flatMap_congr fun e he ↦ ?_
    simp only [staleLines_eq hb he, decide_eq_true_eq]
  rw [entryLines, hfresh, hstale, List.flatMap_append]

/-- The lines for the entries of two sides, up to their order. -/
theorem entryLines_perm (ha : (Ordered.keys a.entries).Nodup)
    (hb : (Ordered.keys b.entries).Nodup) :
    (entryLines a b).Perm ((a.entryTexts b).map .added ++ (b.entryTexts a).map .removed) := by
  rw [entryLines_eq ha hb, Side.entryTexts_eq ha, Side.entryTexts_eq hb, List.map_flatMap,
    List.map_flatMap]
  refine flatMap_union_perm ha hb (fun k hk ↦ ?_) fun k hk ↦ ?_
  · rw [Side.keyText_of_notMem hk, List.map_nil]
  · rw [Side.keyText_of_notMem hk, List.map_nil]

end Entries

/-! ## Groups -/

/-- The lines for two sides of one name. -/
def sideLines (a b : Side) : List Line :=
  (a.shapeTexts b).map .added ++ (b.shapeTexts a).map .removed ++ entryLines a b

theorem sideLines_perm {a b : Side} (ha : (Ordered.keys a.entries).Nodup)
    (hb : (Ordered.keys b.entries).Nodup) :
    (sideLines a b).Perm ((a.texts b).map .added ++ (b.texts a).map .removed) := by
  rw [Side.texts, Side.texts, List.map_append, List.map_append, sideLines, List.append_assoc,
    List.append_assoc]
  refine List.Perm.append_left _ ?_
  refine ((entryLines_perm ha hb).append_left _).trans ?_
  rw [← List.append_assoc, ← List.append_assoc]
  exact List.perm_append_comm.append_right _

section Sides

variable {sides : List Side}

theorem sideAt_of_mem (h : (sides.map Side.group?).Nodup) {s : Side} (hs : s ∈ sides) :
    sideAt sides s.group? = s := by
  rw [sideAt, (find?_key_eq_some_iff h).mpr ⟨hs, rfl⟩, Option.getD_some]

theorem sideAt_of_notMem {group : Option String} (h : group ∉ sides.map Side.group?) :
    sideAt sides group = nothing := by
  have hnone : sides.find? (·.group? = group) = none :=
    List.find?_eq_none.mpr fun s hs heq ↦ h (List.mem_map.mpr ⟨s, hs, by simpa using heq⟩)
  rw [sideAt, hnone, Option.getD_none]

theorem nodup_keys_sideAt (h : HaveDistinctKeys sides) (group : Option String) :
    (Ordered.keys (sideAt sides group).entries).Nodup := by
  rw [sideAt]
  cases hfind : sides.find? (·.group? = group) with
  | none => exact List.nodup_nil
  | some s => exact h.entries s (List.mem_of_find?_eq_some hfind)

theorem sideAt_exportSides_none (stale : List Export) :
    sideAt (exportSides stale) none = caseSide stale := by
  cases stale <;> rfl

theorem sideAt_exportSides_some (stale : List Export) (name : String) :
    sideAt (exportSides stale) (some name)
      = ((stale.tail.find? (·.name == name)).map exportSide).getD nothing := by
  cases stale with
  | nil => rfl
  | cons first more =>
    have hname : ((fun s : Side ↦ decide (s.group? = some name)) ∘ exportSide)
        = fun old : Export ↦ old.name == name := by
      funext old
      simp [exportSide, Side.group?, Place.group?, beq_eq_decide]
    have hfirst : ¬ (⟨.cases, first.entries⟩ : Side).group? = some name := by
      simp [Side.group?, Place.group?]
    rw [sideAt, exportSides, List.find?_cons_of_neg (by simpa using hfirst), List.find?_map, hname,
      List.tail_cons]

/-- The lines for a group of the record are those for its side and its counterpart. -/
theorem groupLines_eq (enumName : String) (stale : List Export) (g : Group) :
    groupLines enumName stale.tail g
      = sideLines (groupSide enumName g) (sideAt (exportSides stale) (some g.name)) := by
  rw [sideAt_exportSides_some, groupLines]
  cases stale.tail.find? (·.name == g.name) with
  | none => rfl
  | some old =>
    by_cases hshape : old.shape = g.shape
    · simp [sideLines, Side.shapeTexts, groupSide, exportSide, hshape]
    · simp [sideLines, Side.shapeTexts, groupSide, exportSide, hshape, Ne.symm hshape]

theorem leftoverLines_eq (r : EnumRecord) (old : Export) :
    leftoverLines r old = if some old.name ∉ (sidesOf r).map Side.group? then
      sideLines nothing (exportSide old) else [] := by
  have hany : r.groups.any (·.name == old.name) = true ↔
      some old.name ∈ (sidesOf r).map Side.group? := by
    simp [sidesOf, groupSide, Side.group?, Place.group?]
  rw [leftoverLines]
  by_cases h : r.groups.any (·.name == old.name) = true
  · rw [if_pos h, if_neg (not_not.mpr (hany.mp h))]
  · rw [if_neg h, if_pos (mt hany.mpr h)]
    rfl

/-- A report goes through the enum, the groups of the record, and the groups that only the module
has. -/
theorem lines_eq_flatMap {r : EnumRecord} {stale : List Export}
    (hr : HaveDistinctKeys (sidesOf r)) (hs : HaveDistinctKeys (exportSides stale)) :
    lines r stale = (groupOrder (sidesOf r) (exportSides stale)).flatMap fun group ↦
      sideLines (sideAt (sidesOf r) group) (sideAt (exportSides stale) group) := by
  have hcases : entryLines ⟨.cases, caseEntries r⟩ (caseSide stale)
      = sideLines (sideAt (sidesOf r) none) (sideAt (exportSides stale) none) := by
    rw [sideAt_exportSides_none]
    cases stale <;> rfl
  have hgroups : ∀ g ∈ r.groups, groupLines r.name stale.tail g = sideLines
      (sideAt (sidesOf r) (some g.name)) (sideAt (exportSides stale) (some g.name)) := by
    intro g hg
    have hmem : groupSide r.name g ∈ sidesOf r :=
      List.mem_cons_of_mem _ (List.mem_map_of_mem hg)
    have hside : sideAt (sidesOf r) (some g.name) = groupSide r.name g :=
      sideAt_of_mem hr.groups hmem
    rw [groupLines_eq, hside]
  have hleft : stale.tail.flatMap (leftoverLines r)
      = (((exportSides stale).map Side.group?).filter
          (· ∉ (sidesOf r).map Side.group?)).flatMap fun group ↦
            sideLines (sideAt (sidesOf r) group) (sideAt (exportSides stale) group) := by
    rw [flatMap_filter]
    cases stale with
    | nil => rfl
    | cons first more =>
      have henum : none ∈ (sidesOf r).map Side.group? := List.mem_cons_self
      have hfirst : (exportSides (first :: more)).map Side.group?
          = none :: more.map fun old ↦ some old.name := by
        simp [exportSides, exportSide, Side.group?, Place.group?]
      rw [hfirst, List.flatMap_cons, if_neg (by simpa using henum), List.nil_append,
        List.flatMap_map, List.tail_cons]
      refine List.flatMap_congr fun old hold ↦ ?_
      have hmem : exportSide old ∈ exportSides (first :: more) :=
        List.mem_cons_of_mem _ (List.mem_map_of_mem hold)
      have hside : sideAt (exportSides (first :: more)) (some old.name) = exportSide old :=
        sideAt_of_mem hs.groups hmem
      rw [leftoverLines_eq]
      by_cases hgroup : some old.name ∈ (sidesOf r).map Side.group?
      · rw [if_neg (not_not.mpr hgroup), if_neg (by simpa using hgroup)]
      · rw [if_pos hgroup, if_pos (by simpa using hgroup), sideAt_of_notMem hgroup, hside]
  rw [lines_eq, hcases, hleft, List.flatMap_congr hgroups, groupOrder, List.flatMap_append]
  congr 1
  rw [List.flatMap_map, sidesOf, List.flatMap_cons, List.flatMap_map]
  rfl

theorem texts_nothing (other : Side) : nothing.texts other = [] := rfl

theorem flatMap_changes (h : (sides.map Side.group?).Nodup) (others : List Side) :
    sides.flatMap (changes others) = (sides.map Side.group?).flatMap fun group ↦
      (sideAt sides group).texts (sideAt others group) := by
  rw [List.flatMap_map]
  exact List.flatMap_congr fun s hs ↦ by rw [sideAt_of_mem h hs, changes]

end Sides

/-! ## Reports -/

namespace Line

def added? : Line → Option String
  | added text => some text
  | removed _ => none

def removed? : Line → Option String
  | added _ => none
  | removed text => some text

end Line

/-- The exports of the module that a record stands for. -/
def exportsFor (r : EnumRecord) : List Export :=
  ⟨r.name, .record, caseEntries r⟩ ::
    r.groups.map fun g ↦ ⟨g.name, g.shape, groupEntries r.name g⟩

theorem exportSides_exportsFor (r : EnumRecord) : exportSides (exportsFor r) = sidesOf r := by
  rw [exportsFor, exportSides, List.map_map]
  rfl

theorem filterMap_added? (added removed : List String) :
    (added.map Line.added ++ removed.map Line.removed).filterMap Line.added? = added := by
  simp [Function.comp_def, Line.added?]

theorem filterMap_removed? (added removed : List String) :
    (added.map Line.added ++ removed.map Line.removed).filterMap Line.removed? = removed := by
  simp [Function.comp_def, Line.removed?]

section Reports

variable {r : EnumRecord} {stale : List Export} (hr : HaveDistinctKeys (sidesOf r))
  (hs : HaveDistinctKeys (exportSides stale))
include hr hs

/-- All that one side has and the other has not is reported, and nothing else. -/
theorem lines_perm : (lines r stale).Perm
    (((sidesOf r).flatMap (changes (exportSides stale))).map .added
      ++ ((exportSides stale).flatMap (changes (sidesOf r))).map .removed) := by
  rw [flatMap_changes hr.groups, flatMap_changes hs.groups, List.map_flatMap, List.map_flatMap,
    lines_eq_flatMap hr hs]
  have hlines : ∀ group ∈ groupOrder (sidesOf r) (exportSides stale),
      (sideLines (sideAt (sidesOf r) group) (sideAt (exportSides stale) group)).Perm
        (((sideAt (sidesOf r) group).texts (sideAt (exportSides stale) group)).map .added
          ++ ((sideAt (exportSides stale) group).texts (sideAt (sidesOf r) group)).map .removed) :=
    fun group _ ↦ sideLines_perm (nodup_keys_sideAt hr group) (nodup_keys_sideAt hs group)
  refine (List.Perm.flatMap_left _ hlines).trans ?_
  rw [groupOrder]
  refine flatMap_union_perm hr.groups hs.groups (fun group hgroup ↦ ?_) fun group hgroup ↦ ?_
  · rw [sideAt_of_notMem hgroup, texts_nothing, List.map_nil]
  · rw [sideAt_of_notMem hgroup, texts_nothing, List.map_nil]

/-- The enum comes first, then come the groups of the record, and then those that only the module
has. -/
theorem exists_blocks : ∃ blocks, lines r stale = blocks.flatten ∧
    List.Forall₂ (fun group block ↦ block.Perm (linesAt (sidesOf r) (exportSides stale) group))
      (groupOrder (sidesOf r) (exportSides stale)) blocks := by
  refine ⟨_, (lines_eq_flatMap hr hs).trans List.flatMap_def, ?_⟩
  rw [List.forall₂_map_right_iff, List.forall₂_same]
  intro group _
  exact sideLines_perm (nodup_keys_sideAt hr group) (nodup_keys_sideAt hs group)

/-- The lines of a report are exactly the differences, group by group, and what is added on the way
from one record to another is what is removed on the way back. -/
theorem lines_exact_and_symm :
    (lines r stale).Perm
        (((sidesOf r).flatMap (changes (exportSides stale))).map .added
          ++ ((exportSides stale).flatMap (changes (sidesOf r))).map .removed) ∧
      (∃ blocks, lines r stale = blocks.flatten ∧
        List.Forall₂ (fun group block ↦ block.Perm (linesAt (sidesOf r) (exportSides stale) group))
          (groupOrder (sidesOf r) (exportSides stale)) blocks) ∧
      ∀ p, HaveDistinctKeys (sidesOf p) →
        ((lines r (exportsFor p)).filterMap Line.added?).Perm
            ((lines p (exportsFor r)).filterMap Line.removed?) ∧
          ((lines r (exportsFor p)).filterMap Line.removed?).Perm
            ((lines p (exportsFor r)).filterMap Line.added?) := by
  refine ⟨lines_perm hr hs, exists_blocks hr hs, fun p hp ↦ ?_⟩
  have hr' : HaveDistinctKeys (exportSides (exportsFor r)) := (exportSides_exportsFor r).symm ▸ hr
  have hp' : HaveDistinctKeys (exportSides (exportsFor p)) := (exportSides_exportsFor p).symm ▸ hp
  have hthere := lines_perm hr hp'
  have hback := lines_perm hp hr'
  rw [exportSides_exportsFor] at hthere hback
  constructor
  · have hadded := hthere.filterMap Line.added?
    have hremoved := hback.filterMap Line.removed?
    rw [filterMap_added?] at hadded
    rw [filterMap_removed?] at hremoved
    exact hadded.trans hremoved.symm
  · have hremoved := hthere.filterMap Line.removed?
    have hadded := hback.filterMap Line.added?
    rw [filterMap_removed?] at hremoved
    rw [filterMap_added?] at hadded
    exact hremoved.trans hadded.symm

end Reports

/-- A record with a case that is changed, a group whose shape is changed, and a group that is
new. -/
def newRecord : EnumRecord where
  name := "E"
  qualified := "E"
  space := none
  doc := none
  cases := [⟨"A", .string "a", none⟩, ⟨"B", .string "b", none⟩]
  groups := [⟨"Shown", .record, [("0", .ofCase "A"), ("x", .ofScalar .null)]⟩,
    ⟨"New", .array, [("0", .ofCase "B")]⟩]
  path := ⟨"E.ts"⟩

def oldRecord : EnumRecord where
  name := "E"
  qualified := "E"
  space := none
  doc := none
  cases := [⟨"B", .string "old", none⟩, ⟨"C", .string "c", none⟩]
  groups := [⟨"Old", .array, [("0", .ofScalar (.int 1))]⟩,
    ⟨"Shown", .array, [("0", .ofCase "A"), ("1", .ofCase "B")]⟩]
  path := ⟨"E.ts"⟩

theorem lines_exact_and_symm_newRecord :
    HaveDistinctKeys (sidesOf newRecord) ∧ HaveDistinctKeys (exportSides (exportsFor oldRecord)) ∧
      HaveDistinctKeys (sidesOf oldRecord) ∧
      (lines newRecord (exportsFor oldRecord)).Perm
        [.added "A: 'a'", .added "B: 'b'", .added "Shown[@kind]: record", .added "Shown.x: null",
          .added "New[0]: E.B", .removed "B: 'old'", .removed "C: 'c'", .removed "Old[0]: 1",
          .removed "Shown[@kind]: array", .removed "Shown[1]: E.B"] ∧
      ((lines newRecord (exportsFor oldRecord)).filterMap Line.added?).Perm
        ((lines oldRecord (exportsFor newRecord)).filterMap Line.removed?) := by
  have hr : HaveDistinctKeys (sidesOf newRecord) := by constructor <;> decide
  have hp : HaveDistinctKeys (sidesOf oldRecord) := by constructor <;> decide
  have hs : HaveDistinctKeys (exportSides (exportsFor oldRecord)) := by
    rwa [exportSides_exportsFor]
  obtain ⟨hperm, -, hsymm⟩ := lines_exact_and_symm hr hs
  exact ⟨hr, hs, hp, hperm, (hsymm oldRecord hp).1⟩

end FrontendSync.Drift
