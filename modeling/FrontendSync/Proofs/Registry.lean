import FrontendSync.Proofs.Php.Declaration
import FrontendSync.Registry

/-!
# Registered enums

A registry holds only enums that were registered, so the values it knows for cases are values of
expressions of the sources.  No two of them have one name, and the index leads to each.
-/

namespace FrontendSync.Registry

open Php

/-! ## The index -/

section Index

variable {r : Registry} {name : String} {e : EnumDecl}

/-- An enum is found exactly if it is registered under that name. -/
theorem get?_eq_some_iff :
    r.get? name = some e ↔
      e ∈ r.enums ∧ Name.same e.qualified (Name.dropRoot name) = true := by
  rw [get?, Option.bind_eq_some_iff, Name.same, beq_iff_eq]
  constructor
  · rintro ⟨i, hi, he⟩
    obtain ⟨d, hd, hname⟩ := (r.index_eq_some_iff _ i).mp hi
    obtain rfl := Option.some.inj (hd.symm.trans he)
    exact ⟨List.mem_of_getElem? he, hname⟩
  · rintro ⟨hmem, hname⟩
    obtain ⟨i, he⟩ := List.mem_iff_getElem?.mp hmem
    exact ⟨i, (r.index_eq_some_iff _ i).mpr ⟨e, he, hname⟩, he⟩

theorem get?_eq_find? (r : Registry) (name : String) :
    r.get? name = r.enums.find? fun e ↦ Name.same e.qualified (Name.dropRoot name) := by
  cases hfind : r.enums.find? fun e ↦ Name.same e.qualified (Name.dropRoot name) with
  | some e =>
    have hname : Name.same e.qualified (Name.dropRoot name) = true := by
      simpa using List.find?_some hfind
    exact get?_eq_some_iff.mpr ⟨List.mem_of_find?_eq_some hfind, hname⟩
  | none =>
    rw [Option.eq_none_iff_forall_ne_some]
    intro e he
    obtain ⟨hmem, hname⟩ := get?_eq_some_iff.mp he
    exact List.find?_eq_none.mp hfind e hmem hname

theorem contains_eq_any (r : Registry) (name : String) :
    r.contains name = r.enums.any fun e ↦ Name.same e.qualified name := by
  rw [Bool.eq_iff_iff, contains, Ordered.contains, Option.isSome_iff_exists, List.any_eq_true]
  constructor
  · rintro ⟨i, hi⟩
    obtain ⟨e, he, hname⟩ := (r.index_eq_some_iff _ i).mp hi
    exact ⟨e, List.mem_of_getElem? he, beq_iff_eq.mpr hname⟩
  · rintro ⟨e, hmem, hname⟩
    obtain ⟨i, he⟩ := List.mem_iff_getElem?.mp hmem
    exact ⟨i, (r.index_eq_some_iff _ i).mpr ⟨e, he, beq_iff_eq.mp hname⟩⟩

theorem enums_register (r : Registry) (e : EnumDecl) :
    (r.register e).enums = if r.contains e.qualified then r.enums else r.enums ++ [e] := by
  rw [register]
  split <;> rfl

end Index

/-! ## Registering -/

/-- The registry of the enums of some sources, in order. -/
def ofSources (sources : List String) : Registry :=
  empty.registerAll (sources.flatMap fun source ↦ (SourceFile.ofSource source).enums)

theorem mem_of_mem_register {r : Registry} {e d : EnumDecl} (h : d ∈ (r.register e).enums) :
    d ∈ r.enums ∨ d = e := by
  rw [enums_register] at h
  split at h
  · exact .inl h
  · exact (List.mem_append.mp h).imp_right List.mem_singleton.mp

theorem mem_of_mem_registerAll {r : Registry} {es : List EnumDecl} {d : EnumDecl}
    (h : d ∈ (r.registerAll es).enums) : d ∈ r.enums ∨ d ∈ es := by
  induction es generalizing r with
  | nil => exact .inl h
  | cons e es ih =>
    rcases ih h with h | h
    · rcases mem_of_mem_register h with h | rfl
      · exact .inl h
      · exact .inr List.mem_cons_self
    · exact .inr (List.mem_cons_of_mem e h)

/-! ## Distinct names -/

/-- No two enums have names that differ in letter case at most. -/
def HasDistinctNames (r : Registry) : Prop :=
  r.enums.Pairwise fun d e ↦ Name.same d.qualified e.qualified = false

theorem hasDistinctNames_empty : empty.HasDistinctNames := .nil

theorem HasDistinctNames.register {r : Registry} (h : r.HasDistinctNames) (e : EnumDecl) :
    (r.register e).HasDistinctNames := by
  rw [HasDistinctNames, enums_register]
  split
  · exact h
  · rename_i hnew
    rw [contains_eq_any, Bool.not_eq_true, List.any_eq_false] at hnew
    apply List.pairwise_append.mpr
    refine ⟨h, List.pairwise_singleton _ _, ?_⟩
    intro d hd d' hd'
    obtain rfl := List.mem_singleton.mp hd'
    exact Bool.eq_false_iff.mpr (hnew d hd)

theorem hasDistinctNames_registerAll {r : Registry} (h : r.HasDistinctNames)
    (es : List EnumDecl) : (r.registerAll es).HasDistinctNames := by
  induction es generalizing r with
  | nil => exact h
  | cons e es ih => exact ih (h.register e)

theorem HasDistinctNames.eq_of_qualified {r : Registry} (h : r.HasDistinctNames) {d e : EnumDecl}
    (hd : d ∈ r.enums) (he : e ∈ r.enums) (hname : d.qualified = e.qualified) : d = e := by
  by_contra hne
  have hsymm : Std.Symm fun d e : EnumDecl ↦ Name.same d.qualified e.qualified = false := by
    constructor
    intro d e hapart
    rw [Name.same, beq_eq_false_iff_ne] at hapart ⊢
    exact hapart.symm
  have hapart := List.Pairwise.forall h hd he hne
  rw [hname, Name.same, beq_self_eq_true] at hapart
  exact Bool.noConfusion hapart

theorem mem_of_find? {r : Registry} {name : String} {e : EnumDecl} (h : r.find? name = some e) :
    e ∈ r.enums := by
  rcases Option.or_eq_some_iff.mp h with hget | ⟨-, hshort⟩
  · exact (get?_eq_some_iff.mp hget).1
  · exact List.mem_of_find?_eq_some hshort

/-! ## Values of cases -/

/-- The enums of sources are well-formed, registered or not. -/
theorem wellFormed_of_mem_ofSources {sources : List String} {e : EnumDecl}
    (h : e ∈ (ofSources sources).enums) : e.WellFormed := by
  rcases mem_of_mem_registerAll h with h | h
  · simp [empty] at h
  · obtain ⟨source, -, he⟩ := List.mem_flatMap.mp h
    exact SourceFile.wellFormed_of_mem_ofSource he

theorem wellFormed_caseValue {r : Registry} (hr : ∀ e ∈ r.enums, e.WellFormed)
    (className caseName : String) (v : Value) (h : r.caseValue className caseName = some v) :
    v.WellFormed := by
  unfold caseValue at h
  split at h
  · rename_i w hw
    obtain rfl := Option.some.inj h
    obtain ⟨c, hc, hvalue⟩ := Option.bind_eq_some_iff.mp hw
    obtain ⟨e, he, hcase⟩ := Option.bind_eq_some_iff.mp hc
    have hwell := hr e (get?_eq_some_iff.mp he).1
    exact (hwell.cases c (List.mem_of_find?_eq_some hcase)).value w hvalue
  · simp at h

end FrontendSync.Registry
