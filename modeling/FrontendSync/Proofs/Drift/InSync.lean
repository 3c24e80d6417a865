import FrontendSync.Drift
import FrontendSync.Proofs.Ordered

/-!
# What an empty report says

A report of differences is made of entries, so an empty one says that the entries of the record
are those of the module wherever both have an export.  It does not say that the module is there at
all: what has no entries can be missing or left over without a line.  `check_eq_nil_iff` states
what an empty report says, and `inSync_of_check_eq_nil_iff` what has to hold besides for the module
to be in sync.
-/

namespace FrontendSync.Drift

open EnumRecord FrontendSync.Module

/-! ## Entries -/

/-- The same values under the same keys, in whatever order. -/
def SameEntries (xs ys : List (String × Value)) : Prop := ∀ e, e ∈ xs ↔ e ∈ ys

/-- No key stands for two values. -/
def IsConsistent (xs : List (String × Value)) : Prop :=
  ∀ k v w, (k, v) ∈ xs → (k, w) ∈ xs → v = w

/-- No difference is found between new entries and old ones: the first old entry of each new key
has its value, and no old key is new. -/
structure Agrees (xs ys : List (String × Value)) : Prop where
  fresh : ∀ e ∈ xs, Ordered.get? e.1 ys = some e.2
  stale : ∀ e ∈ ys, Ordered.contains e.1 xs = true

theorem freshLines_eq_nil_iff {fresh stale : Side} {e : String × Value} :
    freshLines fresh stale e = [] ↔ Ordered.get? e.1 stale.entries = some e.2 := by
  unfold freshLines
  split
  · rename_i h
    simp [h]
  · rename_i old h
    split <;> simp_all

theorem staleLines_eq_nil_iff {fresh stale : Side} {e : String × Value} :
    staleLines fresh stale e = [] ↔ Ordered.contains e.1 fresh.entries = true := by
  unfold staleLines
  split <;> simp_all

theorem entryLines_eq_nil_iff {fresh stale : Side} :
    entryLines fresh stale = [] ↔ Agrees fresh.entries stale.entries := by
  simp only [entryLines, List.append_eq_nil_iff, List.flatMap_eq_nil_iff, freshLines_eq_nil_iff,
    staleLines_eq_nil_iff]
  constructor
  · rintro ⟨hf, hs⟩
    exact ⟨hf, hs⟩
  · rintro ⟨hf, hs⟩
    exact ⟨hf, hs⟩

theorem agrees_nil_right_iff {xs : List (String × Value)} : Agrees xs [] ↔ xs = [] := by
  constructor
  · rintro ⟨hf, -⟩
    exact List.eq_nil_iff_forall_not_mem.mpr fun e he ↦ by simpa using hf e he
  · rintro rfl
    constructor <;> simp

theorem agrees_nil_left_iff {xs : List (String × Value)} : Agrees [] xs ↔ xs = [] := by
  constructor
  · rintro ⟨-, hs⟩
    exact List.eq_nil_iff_forall_not_mem.mpr fun e he ↦ by simpa [Ordered.contains] using hs e he
  · rintro rfl
    constructor <;> simp

/-- Entries without differences are the same unless an old key stands for two values. -/
theorem Agrees.sameEntries_iff {xs ys : List (String × Value)} (h : Agrees xs ys) :
    SameEntries xs ys ↔ IsConsistent ys := by
  constructor
  · intro hsame k v w hv hw
    have hv := h.fresh _ ((hsame _).mpr hv)
    have hw := h.fresh _ ((hsame _).mpr hw)
    exact Option.some.inj (hv.symm.trans hw)
  · rintro hys ⟨k, v⟩
    refine ⟨fun he ↦ Ordered.mem_of_get?_eq_some (h.fresh _ he), fun he ↦ ?_⟩
    obtain ⟨w, hw⟩ := Ordered.contains_iff_exists_mem.mp (h.stale _ he)
    obtain rfl := hys k v w he (Ordered.mem_of_get?_eq_some (h.fresh _ hw))
    exact hw

/-! ## Exports -/

/-- No difference is found between a group and the first export of its name, if there is one. -/
def GroupAgrees (enumName : String) (g : Group) : Option Export → Prop
  | none => groupEntries enumName g = []
  | some old => old.shape = g.shape ∧ Agrees (groupEntries enumName g) old.entries

/-- What an empty report says about a module with the given exports. -/
structure Unreported (r : EnumRecord) (stale : List Export) : Prop where
  cases : Agrees (caseEntries r) ((stale.head?.map Export.entries).getD [])
  groups : ∀ g ∈ r.groups, GroupAgrees r.name g (stale.tail.find? (·.name == g.name))
  leftovers : ∀ old ∈ stale.tail, (∃ g ∈ r.groups, g.name = old.name) ∨ old.entries = []

theorem groupLines_eq_nil_iff {enumName : String} {stale : List Export} {g : Group} :
    groupLines enumName stale g = []
      ↔ GroupAgrees enumName g (stale.find? (·.name == g.name)) := by
  unfold groupLines
  cases stale.find? (·.name == g.name) with
  | none =>
    simp only [entryLines_eq_nil_iff]
    exact agrees_nil_right_iff
  | some old =>
    simp only [List.append_eq_nil_iff, entryLines_eq_nil_iff]
    refine and_congr ?_ Iff.rfl
    split <;> simp_all

theorem leftoverLines_eq_nil_iff {r : EnumRecord} {old : Export} :
    leftoverLines r old = [] ↔ (∃ g ∈ r.groups, g.name = old.name) ∨ old.entries = [] := by
  have hany : (r.groups.any (·.name == old.name) = true) ↔ ∃ g ∈ r.groups, g.name = old.name := by
    simp
  unfold leftoverLines
  rw [← hany]
  split
  · simp_all
  · rename_i h
    rw [entryLines_eq_nil_iff, nothing, exportSide, agrees_nil_left_iff]
    simp [h]

/-- The cases of the enum in a module. -/
def caseSide : List Export → Side
  | [] => nothing
  | first :: _ => ⟨.cases, first.entries⟩

theorem lines_eq (r : EnumRecord) (stale : List Export) :
    lines r stale = entryLines ⟨.cases, caseEntries r⟩ (caseSide stale)
      ++ r.groups.flatMap (groupLines r.name stale.tail)
      ++ stale.tail.flatMap (leftoverLines r) := by
  cases stale <;> rfl

theorem lines_eq_nil_iff {r : EnumRecord} {stale : List Export} :
    lines r stale = [] ↔ Unreported r stale := by
  have hcases : entryLines ⟨.cases, caseEntries r⟩ (caseSide stale) = []
      ↔ Agrees (caseEntries r) ((stale.head?.map Export.entries).getD []) := by
    rw [entryLines_eq_nil_iff]
    cases stale <;> exact Iff.rfl
  rw [lines_eq]
  simp only [List.append_eq_nil_iff, List.flatMap_eq_nil_iff, groupLines_eq_nil_iff,
    leftoverLines_eq_nil_iff, hcases]
  exact ⟨fun ⟨⟨hc, hg⟩, hl⟩ ↦ ⟨hc, hg, hl⟩, fun ⟨hc, hg, hl⟩ ↦ ⟨⟨hc, hg⟩, hl⟩⟩

/-- A report is empty exactly when nothing that has entries differs. -/
theorem check_eq_nil_iff {r : EnumRecord} {previous : Option String} :
    check r previous = [] ↔ Unreported r (exportsOf r.name previous) := lines_eq_nil_iff

/-! ## In sync -/

/-- An export that is what a group stands for. -/
structure IsCopy (enumName : String) (g : Group) (old : Export) : Prop where
  name : old.name = g.name
  shape : old.shape = g.shape
  entries : SameEntries (groupEntries enumName g) old.entries

/-- A module that is what a record stands for: it is there, the enum comes first, every group is
exported, and nothing else is. -/
structure Mirrors (r : EnumRecord) (first : Export) (more : List Export) : Prop where
  name : first.name = r.name
  shape : first.shape = .record
  cases : SameEntries (caseEntries r) first.entries
  groups : ∀ g ∈ r.groups, ∃ old ∈ more, IsCopy r.name g old
  leftovers : ∀ old ∈ more, ∃ g ∈ r.groups, IsCopy r.name g old

def InSync (r : EnumRecord) (previous : Option String) : Prop :=
  ∃ source first more, previous = some source ∧ Export.ofSource source = first :: more ∧
    Mirrors r first more

/-- What no line is written for: an enum that is an array, a group that is not exported, an export
of no group, exports of one name that differ, and keys that stand for two values. -/
structure HidesNothing (r : EnumRecord) (first : Export) (more : List Export) : Prop where
  shape : first.shape = .record
  groups : ∀ g ∈ r.groups, ∃ old ∈ more, old.name = g.name
  leftovers : ∀ old ∈ more, ∃ g ∈ r.groups, g.name = old.name
  repeats : ∀ old ∈ more, ∀ e ∈ more, old.name = e.name →
    old.shape = e.shape ∧ SameEntries old.entries e.entries
  keys : ∀ e ∈ first :: more, IsConsistent e.entries

theorem exportsOf_eq_cons_iff {enumName : String} {previous : Option String} {first : Export}
    {more : List Export} : exportsOf enumName previous = first :: more
      ↔ ∃ source, previous = some source ∧ Export.ofSource source = first :: more ∧
        first.name = enumName := by
  cases previous with
  | none => simp [exportsOf]
  | some source =>
    simp only [exportsOf, Option.some.injEq, exists_eq_left']
    cases Export.ofSource source with
    | nil => simp
    | cons e es =>
      by_cases h : e.name = enumName
      · simp only [h, beq_self_eq_true, ↓reduceIte, List.cons.injEq]
        exact ⟨fun heq ↦ ⟨heq, heq.1 ▸ h⟩, And.left⟩
      · simp only [beq_eq_false_iff_ne.mpr h, Bool.false_eq_true, ↓reduceIte, reduceCtorEq,
          List.cons.injEq, false_iff]
        rintro ⟨⟨rfl, -⟩, hname⟩
        exact h hname

theorem inSync_iff {r : EnumRecord} {previous : Option String} :
    InSync r previous
      ↔ ∃ first more, exportsOf r.name previous = first :: more ∧ Mirrors r first more := by
  simp only [exportsOf_eq_cons_iff]
  constructor
  · rintro ⟨source, first, more, hp, hs, hm⟩
    exact ⟨first, more, ⟨source, hp, hs, hm.name⟩, hm⟩
  · rintro ⟨first, more, ⟨source, hp, hs, -⟩, hm⟩
    exact ⟨source, first, more, hp, hs, hm⟩

namespace SameEntries

variable {xs ys zs : List (String × Value)}

protected theorem symm (h : SameEntries xs ys) : SameEntries ys xs := fun e ↦ (h e).symm

protected theorem trans (h : SameEntries xs ys) (h' : SameEntries ys zs) : SameEntries xs zs :=
  fun e ↦ (h e).trans (h' e)

end SameEntries

section Unreported

variable {r : EnumRecord} {first : Export} {more : List Export}
  (h : Unreported r (first :: more))
include h

/-- The first export of a name agrees with every group of that name. -/
theorem Unreported.exists_first {n : String} (hn : ∃ old ∈ more, old.name = n) :
    ∃ f ∈ more, f.name = n ∧ ∀ g ∈ r.groups, g.name = n →
      f.shape = g.shape ∧ Agrees (groupEntries r.name g) f.entries := by
  obtain ⟨old, hold, hname⟩ := hn
  cases hf : more.find? (·.name == n) with
  | none =>
    have hnone := List.find?_eq_none.mp hf old hold
    simp [hname] at hnone
  | some f =>
    refine ⟨f, List.mem_of_find?_eq_some hf, by simpa using List.find?_some hf, ?_⟩
    rintro g hg rfl
    have hagrees := h.groups g hg
    rwa [List.tail_cons, hf] at hagrees

theorem Unreported.hidesNothing (hm : Mirrors r first more) : HidesNothing r first more := by
  -- what is copied holds no key twice, because its group agrees with the first export of its name
  have hkeys : ∀ e ∈ more, IsConsistent e.entries := by
    intro e he k v w hv hw
    obtain ⟨g, hg, hcopy⟩ := hm.leftovers e he
    obtain ⟨f, -, -, hf⟩ := h.exists_first ⟨e, he, hcopy.name⟩
    obtain ⟨-, hagrees⟩ := hf g hg rfl
    have hv := hagrees.fresh _ ((hcopy.entries _).mpr hv)
    have hw := hagrees.fresh _ ((hcopy.entries _).mpr hw)
    exact Option.some.inj (hv.symm.trans hw)
  have hfirst : ∀ n, (∃ old ∈ more, old.name = n) → ∃ f : Export, ∀ e ∈ more, e.name = n →
      e.shape = f.shape ∧ SameEntries e.entries f.entries := by
    intro n hn
    obtain ⟨f, hmem, -, hf⟩ := h.exists_first hn
    refine ⟨f, fun e he hname ↦ ?_⟩
    obtain ⟨g, hg, hcopy⟩ := hm.leftovers e he
    obtain ⟨hshape, hagrees⟩ := hf g hg (hcopy.name.symm.trans hname)
    have hsame := hagrees.sameEntries_iff.mpr (hkeys f hmem)
    exact ⟨hcopy.shape.trans hshape.symm, hcopy.entries.symm.trans hsame⟩
  refine ⟨hm.shape, ?_, ?_, ?_, ?_⟩
  · intro g hg
    obtain ⟨old, hold, hcopy⟩ := hm.groups g hg
    exact ⟨old, hold, hcopy.name⟩
  · intro old hold
    obtain ⟨g, hg, hcopy⟩ := hm.leftovers old hold
    exact ⟨g, hg, hcopy.name.symm⟩
  · intro old hold e he hname
    obtain ⟨f, hf⟩ := hfirst e.name ⟨e, he, rfl⟩
    obtain ⟨hshape, hsame⟩ := hf old hold hname
    obtain ⟨hshape', hsame'⟩ := hf e he rfl
    exact ⟨hshape.trans hshape'.symm, hsame.trans hsame'.symm⟩
  · intro e he
    obtain rfl | he := List.mem_cons.mp he
    · exact h.cases.sameEntries_iff.mp hm.cases
    · exact hkeys e he

theorem Unreported.mirrors (hname : first.name = r.name) (hn : HidesNothing r first more) :
    Mirrors r first more := by
  have hcopy : ∀ g ∈ r.groups, ∀ old ∈ more, old.name = g.name → IsCopy r.name g old := by
    intro g hg old hold holdName
    obtain ⟨f, hmem, hfName, hf⟩ := h.exists_first ⟨old, hold, holdName⟩
    obtain ⟨hshape, hagrees⟩ := hf g hg rfl
    obtain ⟨hshapes, hsame⟩ := hn.repeats old hold f hmem (holdName.trans hfName.symm)
    have hcopied := hagrees.sameEntries_iff.mpr (hn.keys f (List.mem_cons_of_mem _ hmem))
    exact ⟨holdName, hshapes.trans hshape, hcopied.trans hsame.symm⟩
  refine ⟨hname, hn.shape, ?_, ?_, ?_⟩
  · exact h.cases.sameEntries_iff.mpr (hn.keys first List.mem_cons_self)
  · intro g hg
    obtain ⟨old, hold, holdName⟩ := hn.groups g hg
    exact ⟨old, hold, hcopy g hg old hold holdName⟩
  · intro old hold
    obtain ⟨g, hg, hgName⟩ := hn.leftovers old hold
    exact ⟨g, hg, hcopy g hg old hold hgName.symm⟩

end Unreported

/-- The enum is there as the first of the exports, and they hide nothing. -/
def HidesNothingIn (r : EnumRecord) (stale : List Export) : Prop :=
  ∃ first more, stale = first :: more ∧ HidesNothing r first more

theorem inSync_iff_of_unreported {r : EnumRecord} {previous : Option String}
    (h : Unreported r (exportsOf r.name previous)) :
    InSync r previous ↔ HidesNothingIn r (exportsOf r.name previous) := by
  rw [inSync_iff]
  constructor
  · rintro ⟨first, more, hs, hm⟩
    rw [hs] at h
    exact ⟨first, more, hs, h.hidesNothing hm⟩
  · rintro ⟨first, more, hs, hn⟩
    obtain ⟨_, _, _, hname⟩ := exportsOf_eq_cons_iff.mp hs
    rw [hs] at h
    exact ⟨first, more, hs, h.mirrors hname hn⟩

/-- An empty report means that the module is in sync exactly as far as the module is there and
hides nothing. -/
theorem inSync_of_check_eq_nil_iff (r : EnumRecord) (previous : Option String) :
    (check r previous = [] → InSync r previous)
      ↔ (check r previous ≠ [] ∨ HidesNothingIn r (exportsOf r.name previous)) := by
  rw [check_eq_nil_iff, ne_eq, check_eq_nil_iff]
  constructor
  · intro himp
    by_cases h : Unreported r (exportsOf r.name previous)
    · exact .inr ((inSync_iff_of_unreported h).mp (himp h))
    · exact .inl h
  · rintro (h | h) hu
    · exact absurd hu h
    · exact (inSync_iff_of_unreported hu).mpr h

/-- An enum with one case, whose module still exports a group that has no entries and is gone. -/
def lonelyRecord : EnumRecord where
  name := "E"
  qualified := "E"
  space := none
  doc := none
  cases := [⟨"A", .string "a", none⟩]
  groups := []
  path := ⟨"E.ts"⟩

theorem not_inSync_lonelyRecord :
    check lonelyRecord (some "export const E = \x7b A: 'a' \x7d;\nexport const Old = [];") = [] ∧
      ¬ InSync lonelyRecord (some "export const E = \x7b A: 'a' \x7d;\nexport const Old = [];") := by
  have hexports : Export.ofSource "export const E = \x7b A: 'a' \x7d;\nexport const Old = [];"
      = [⟨"E", .record, [("A", .string "a")]⟩, ⟨"Old", .array, []⟩] := by decide +kernel
  constructor
  · simp only [check, exportsOf, hexports]
    decide
  · rintro ⟨source, first, more, hp, hs, hm⟩
    obtain rfl := Option.some.inj hp
    rw [hexports] at hs
    obtain ⟨rfl, rfl⟩ := List.cons.inj hs
    obtain ⟨g, hg, -⟩ := hm.leftovers _ List.mem_cons_self
    simp [lonelyRecord] at hg

end FrontendSync.Drift
