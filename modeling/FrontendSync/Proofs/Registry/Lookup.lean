import FrontendSync.Proofs.Ordered
import FrontendSync.Proofs.Project.Selection

/-!
# Registries as maps

A registry keeps the first enum of each name, whatever the case of its letters, and finds it under
that name.  Enums with different names may be registered in any order.
-/

namespace FrontendSync.Registry

open Php

variable {r : Registry} {es es' : List EnumDecl} {e : EnumDecl} {name : String}

/-- The key of an enum in the index. -/
def key (e : EnumDecl) : String := e.qualified.toLower

/-- The first enum of each name, in order. -/
def firsts (es : List EnumDecl) : List EnumDecl :=
  es.eraseDupsBy fun e d ↦ Name.same d.qualified e.qualified

/-! ## Registered enums -/

theorem enums_registerAll_empty (es : List EnumDecl) :
    (empty.registerAll es).enums = firsts es := by
  have hfold : ∀ r : Registry, (r.registerAll es).enums = es.foldl
      (fun ds e ↦ if ds.any fun d ↦ Name.same d.qualified e.qualified then ds else ds ++ [e])
      r.enums := by
    induction es with
    | nil => exact fun _ ↦ rfl
    | cons e es ih =>
      intro r
      rw [registerAll, List.foldl_cons, ← registerAll, ih, enums_register, contains_eq_any]
      rfl
  rw [hfold]
  exact foldl_addNew_nil (fun e d ↦ Name.same d.qualified e.qualified) es

/-- A new enum has its entry at the end of the index. -/
theorem index_register (r : Registry) (e : EnumDecl) :
    (r.register e).index
      = if r.contains e.qualified then r.index else r.index ++ [(key e, r.enums.length)] := by
  rw [register]
  split
  · rfl
  · rename_i hnew
    have hkey : key e ∉ Ordered.keys r.index := by
      rw [← Ordered.get?_eq_none_iff]
      simpa [contains, Ordered.contains, key] using hnew
    exact Ordered.insert_of_notMem hkey

/-- The index has one entry for each enum. -/
theorem keys_index_registerAll (h : Ordered.keys r.index = r.enums.map key) (es : List EnumDecl) :
    Ordered.keys (r.registerAll es).index = (r.registerAll es).enums.map key := by
  induction es generalizing r with
  | nil => exact h
  | cons e es ih =>
    refine ih ?_
    rw [index_register, enums_register]
    split
    · exact h
    · rw [Ordered.keys, List.map_append, List.map_append]
      exact congrArg (· ++ [key e]) h

/-! ## Lookups -/

/-- Where nothing is found, the enum that is registered last may be. -/
theorem get?_register (r : Registry) (e : EnumDecl) (name : String) :
    (r.register e).get? name
      = (r.get? name).or (if Name.same e.qualified (Name.dropRoot name) then some e else none) := by
  rw [get?_eq_find?, get?_eq_find?, enums_register]
  cases hold : r.contains e.qualified with
  | false =>
    rw [if_neg Bool.false_ne_true, List.find?_append, List.find?_singleton]
  | true =>
    rw [if_pos rfl]
    split
    · rename_i hname
      -- the enum that has the name already is found under it
      rw [contains_eq_any, List.any_eq_true] at hold
      obtain ⟨d, hd, hsame⟩ := hold
      have hfound : (r.enums.find? fun e ↦ Name.same e.qualified (Name.dropRoot name)).isSome := by
        refine List.find?_isSome.mpr ⟨d, hd, ?_⟩
        rw [Name.same, beq_iff_eq] at hname hsame ⊢
        exact hsame.trans hname
      obtain ⟨c, hc⟩ := Option.isSome_iff_exists.mp hfound
      rw [hc]
      rfl
    · rw [Option.or_none]

/-- What is found is the first enum of the name. -/
theorem get?_registerAll (r : Registry) (es : List EnumDecl) (name : String) :
    (r.registerAll es).get? name
      = (r.get? name).or (es.find? fun e ↦ Name.same e.qualified (Name.dropRoot name)) := by
  induction es generalizing r with
  | nil => rw [List.find?_nil, Option.or_none]; rfl
  | cons e es ih =>
    rw [registerAll, List.foldl_cons, ← registerAll, ih, get?_register, Option.or_assoc,
      List.find?_cons]
    cases Name.same e.qualified (Name.dropRoot name) <;> rfl

theorem get?_registerAll_empty (es : List EnumDecl) (name : String) :
    (empty.registerAll es).get? name
      = es.find? fun e ↦ Name.same e.qualified (Name.dropRoot name) := by
  have hnone : empty.get? name = none := rfl
  rw [get?_registerAll, hnone, Option.none_or]

/-- A name without a root. -/
def IsRootless (name : String) : Prop := name.toList.head? ≠ some '\\'

instance : DecidablePred IsRootless := fun name ↦
  inferInstanceAs (Decidable (name.toList.head? ≠ some '\\'))

theorem dropRoot_of_isRootless (h : IsRootless name) : Name.dropRoot name = name := by
  rw [IsRootless] at h
  rw [Name.dropRoot]
  cases hchars : name.toList with
  | nil => exact (String.toList_eq_nil_iff.mp hchars).symm
  | cons c cs =>
    have hc : c ≠ '\\' := by simpa [hchars] using h
    rw [List.dropWhile_cons_of_neg (by simpa using hc), ← hchars, String.ofList_toList]

/-- What a registry says about the enums that were registered, in order. -/
structure KeepsFirst (es : List EnumDecl) (r : Registry) : Prop where
  enums : r.enums = firsts es
  distinct : r.HasDistinctNames
  keys : Ordered.keys r.index = r.enums.map key
  position : ∀ k i, Ordered.get? k r.index = some i ↔ ∃ e, r.enums[i]? = some e ∧ key e = k
  found : ∀ name e, r.get? name = some e ↔
    e ∈ r.enums ∧ Name.same e.qualified (Name.dropRoot name) = true
  first : ∀ name, r.get? name = es.find? fun e ↦ Name.same e.qualified (Name.dropRoot name)
  /-- Every enum that is kept is found under its own name. -/
  self : ∀ e ∈ r.enums, r.get? e.qualified = some e

theorem keepsFirst_registerAll (hes : ∀ e ∈ es, IsRootless e.qualified) :
    KeepsFirst es (empty.registerAll es) where
  enums := enums_registerAll_empty es
  distinct := hasDistinctNames_registerAll hasDistinctNames_empty es
  keys := keys_index_registerAll rfl es
  position := (empty.registerAll es).index_eq_some_iff
  found := fun _ _ ↦ get?_eq_some_iff
  first := get?_registerAll_empty es
  self := by
    intro e he
    have hmem : e ∈ es := by
      rw [enums_registerAll_empty] at he
      exact (eraseDupsBy_sublist _ _).subset he
    rw [get?_eq_some_iff, dropRoot_of_isRootless (hes e hmem), Name.same]
    exact ⟨he, beq_self_eq_true _⟩

/-! ## The order of registrations -/

/-- A rearrangement in which the enums of each name stay in order. -/
def Rearranges (es es' : List EnumDecl) : Prop :=
  ∀ k, (es'.filter fun e ↦ key e == k) = es.filter fun e ↦ key e == k

/-- Enums with different names may be put in any order. -/
theorem rearranges_of_perm (h : es'.Perm es)
    (hes : es.Pairwise fun d e ↦ Name.same d.qualified e.qualified = false) :
    Rearranges es es' := by
  intro k
  have hperm := h.filter fun e ↦ key e == k
  have hapart := hes.filter fun e ↦ key e == k
  have hkeys : ∀ e ∈ es.filter (fun e ↦ key e == k), key e = k := fun e he ↦
    beq_iff_eq.mp (List.mem_filter.mp he).2
  -- there is at most one enum of that name
  match hfilter : es.filter fun e ↦ key e == k with
  | [] => rwa [hfilter, List.perm_nil] at hperm
  | [e] => rwa [hfilter, List.perm_singleton] at hperm
  | d :: e :: more =>
    rw [hfilter] at hapart hkeys
    have hne := (List.pairwise_cons.mp hapart).1 e List.mem_cons_self
    have hsame : key d = key e := (hkeys d (by simp)).trans (hkeys e (by simp)).symm
    rw [Name.same, beq_eq_false_iff_ne] at hne
    exact absurd hsame hne

theorem get?_of_rearranges (h : Rearranges es es') :
    (empty.registerAll es').get? = (empty.registerAll es).get? := by
  funext name
  rw [get?_registerAll_empty, get?_registerAll_empty, ← List.head?_filter, ← List.head?_filter]
  exact congrArg List.head? (h (Name.dropRoot name).toLower)

theorem caseValue_of_rearranges (h : Rearranges es es') :
    (empty.registerAll es').caseValue = (empty.registerAll es).caseValue := by
  funext className caseName
  rw [caseValue, caseValue, get?_of_rearranges h]

/-- A registry in which enums are registered one by one keeps the first of each name, with its
position under that name.  It finds the one enum of a name, and selects enums by their first
mention if every name is found.  Enums with different names may be registered in another order:
the same enums are found, the cases have the same values, and an enum has the same record. -/
theorem registerAll_keepsFirst (hes : ∀ e ∈ es, IsRootless e.qualified) :
    KeepsFirst es (empty.registerAll es) ∧
      (∀ names, (∃ selected, (empty.registerAll es).select names = .ok selected) ↔
        ∀ name ∈ names, ∃ e, (empty.registerAll es).find? name = some e) ∧
      (∀ names selected, (empty.registerAll es).select names = .ok selected →
        selected = (empty.registerAll es).mentioned names ∧ selected.Nodup ∧
          ∀ e, e ∈ selected ↔ ∃ name ∈ names, (empty.registerAll es).find? name = some e) ∧
      ((es.Pairwise fun d e ↦ Name.same d.qualified e.qualified = false) →
        ∀ es', es'.Perm es → Rearranges es es') ∧
      ∀ es', Rearranges es es' →
        (empty.registerAll es').get? = (empty.registerAll es).get? ∧
          (empty.registerAll es').caseValue = (empty.registerAll es).caseValue ∧
          ∀ target e, EnumRecord.ofDecl (empty.registerAll es').caseValue target e
            = EnumRecord.ofDecl (empty.registerAll es).caseValue target e := by
  have hkept := keepsFirst_registerAll hes
  refine ⟨hkept, fun names ↦ ?_, fun names selected hselected ↦ ?_,
    fun hapart es' hperm ↦ rearranges_of_perm hperm hapart, fun es' hes' ↦ ?_⟩
  · simp only [select_eq_ok_iff, exists_and_left, exists_eq, and_true]
  · obtain ⟨-, rfl⟩ := select_eq_ok_iff.mp hselected
    exact ⟨rfl, nodup_mentioned _ names, fun e ↦ mem_mentioned hkept.distinct⟩
  · have hvalues := caseValue_of_rearranges hes'
    exact ⟨get?_of_rearranges hes', hvalues, fun target e ↦ by rw [hvalues]⟩

/-- Three enums, two with names that differ in letter case only. -/
def threeEnums : List EnumDecl := ["A", "a", "B"].map Project.singleEnum

/-- The second of the two enums with one name is not kept, also if the third one comes first. -/
theorem keepsFirst_threeEnums :
    (∀ e ∈ threeEnums, IsRootless e.qualified) ∧
      (empty.registerAll threeEnums).enums = ["A", "B"].map Project.singleEnum ∧
      (empty.registerAll (["B", "A", "a"].map Project.singleEnum)).get? "\\n\\a"
        = some (Project.singleEnum "A") := by
  have hrootless : ∀ e ∈ threeEnums, IsRootless e.qualified := by decide +kernel
  obtain ⟨hkept, -, -, -, hrearranged⟩ := registerAll_keepsFirst hrootless
  have hA : key (Project.singleEnum "A") = "n\\a" := by decide +kernel
  have ha : key (Project.singleEnum "a") = "n\\a" := by decide +kernel
  have hB : key (Project.singleEnum "B") = "n\\b" := by decide +kernel
  have hsame (d e : EnumDecl) : Name.same d.qualified e.qualified = (key d == key e) := rfl
  have henums : (empty.registerAll threeEnums).enums = ["A", "B"].map Project.singleEnum := by
    rw [hkept.enums]
    simp [firsts, threeEnums, List.eraseDupsBy_cons, hsame, hA, ha, hB]
  have horder : Rearranges threeEnums (["B", "A", "a"].map Project.singleEnum) := by
    intro k
    by_cases hk : "n\\a" = k
    · subst hk
      simp [threeEnums, hA, ha, hB]
    · simp [threeEnums, List.filter_cons, hA, ha, hk]
  have hlower : (Name.dropRoot "\\n\\a").toLower = "n\\a" := by decide +kernel
  refine ⟨hrootless, henums, ?_⟩
  rw [(hrearranged _ horder).1, hkept.found, henums, Name.same, hlower, beq_iff_eq]
  exact ⟨List.mem_cons_self, hA⟩

end FrontendSync.Registry
