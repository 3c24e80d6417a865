import FrontendSync.Proofs.Enum.Record
import FrontendSync.Proofs.Registry

/-!
# What a record keeps of a declaration

The record of a declared enum has its cases, name by name and comment by comment, with values of
its type, and one group for each method that its marker names.  No two exports of a record and no
two keys of a group share a name, and a group is an array exactly if its keys are the positions.
-/

namespace FrontendSync

namespace Php

/-- Keys of arrays are known by their texts. -/
theorem Key.map_text_injective {js ks : List Key} (hj : ∀ j ∈ js, j.IsNormal)
    (hk : ∀ k ∈ ks, k.IsNormal) (h : js.map text = ks.map text) : js = ks := by
  induction js generalizing ks with
  | nil => exact (List.map_eq_nil_iff.mp h.symm).symm
  | cons j js ih =>
    cases ks with
    | nil => simp at h
    | cons k ks =>
      rw [List.forall_mem_cons] at hj hk
      obtain ⟨hhead, htail⟩ := List.cons.inj h
      rw [Key.text_injective hj.1 hk.1 hhead, ih hj.2 hk.2 htail]

/-- An enum that some source declares; it may have been found in any file. -/
def EnumDecl.IsDeclared (e : EnumDecl) : Prop :=
  ∃ source file, ∃ d ∈ (SourceFile.ofSource source).enums, e = { d with file := file }

theorem EnumDecl.isDeclared_of_mem {source : String} {e : EnumDecl}
    (h : e ∈ (SourceFile.ofSource source).enums) : e.IsDeclared :=
  ⟨source, e.file, e, h, rfl⟩

theorem EnumDecl.IsDeclared.wellFormed {e : EnumDecl} (h : e.IsDeclared) : e.WellFormed := by
  obtain ⟨source, file, d, hd, rfl⟩ := h
  obtain ⟨hname, hcases, hmethods⟩ := SourceFile.wellFormed_of_mem_ofSource hd
  exact ⟨hname, hcases, hmethods⟩

end Php

/-- The enums that are registered from sources are enums that these declare. -/
theorem Registry.isDeclared_of_mem_ofSources {sources : List String} (e : Php.EnumDecl)
    (h : e ∈ (ofSources sources).enums) : e.IsDeclared := by
  rcases mem_of_mem_registerAll h with h | h
  · simp [empty] at h
  · obtain ⟨source, -, he⟩ := List.mem_flatMap.mp h
    exact Php.EnumDecl.isDeclared_of_mem he

namespace EnumRecord

open Php

/-- The literal for the value of a case: a text where the enum is backed by texts, an integer where
it is backed by integers. -/
inductive IsValueOf : Backing → Option (Except EvalError Value) → Scalar → Prop
  | string (text : String) : IsValueOf .string (some (.ok (.string text))) (.string text)
  | int (n : Int) : IsValueOf .int (some (.ok (.int n))) (.int n)

structure IsCaseOf (backing : Backing) (c : CaseDecl) (d : Case) : Prop where
  name : d.name = c.name
  value : IsValueOf backing c.value d.value
  doc : d.doc = c.doc

/-- A group as a method of an enum gives it. -/
structure IsGroupOf (e : EnumDecl) (method : String) (g : Group) : Prop where
  name : ∃ m, e.method? method = some m ∧ g.name = groupName m.name
  keys : (g.entries.map Prod.fst).Nodup
  /-- Beyond `2 ^ 63` entries a position is no integer, and no memory holds that many. -/
  shape : g.entries.length ≤ 2 ^ 63 → (g.shape = .array ↔
    g.entries.map Prod.fst = (List.range g.entries.length).map fun n ↦ Decimal.ofInt (n : Nat))

/-- What the record of an enum keeps of the declaration and of its marker. -/
structure IsRecordOf (e : EnumDecl) (r : EnumRecord) : Prop where
  name : r.name = e.name
  cases : ∃ backing, e.backing = some backing ∧ List.Forall₂ (IsCaseOf backing) e.cases r.cases
  docs : (Wishes.of e).needsDocs = true → ∀ c ∈ r.cases, c.doc.isSome = true
  groups : List.Forall₂ (IsGroupOf e) (Wishes.of e).methods r.groups
  exportNames : (r.name :: r.groups.map Group.name).Nodup
  references : ∀ g ∈ r.groups, ∀ p ∈ g.entries, ∀ name, p.2 = .ofCase name →
    name ∈ r.cases.map Case.name

/-! ## Cases -/

theorem isValueOf_of_caseValue {backing : Backing} {c : CaseDecl} {s : Scalar}
    (h : caseValue backing c = .ok s) : IsValueOf backing c.value s := by
  unfold caseValue at h
  split at h
  · rename_i text hvalue
    obtain rfl := Except.ok.inj h
    exact hvalue ▸ .string text
  · rename_i n hvalue
    obtain rfl := Except.ok.inj h
    exact hvalue ▸ .int n
  · simp at h
  · simp at h
  · simp at h

/-- A case is made as it is declared, and not without a comment where one is asked for. -/
theorem isCaseOf_of_caseOf {enumName : String} {backing : Backing} {needsDocs : Bool}
    {c : CaseDecl} {d : Case} (h : caseOf enumName backing needsDocs c = .ok d) :
    IsCaseOf backing c d ∧ (needsDocs = true → d.doc.isSome = true) := by
  unfold caseOf at h
  split at h
  · simp at h
  · rename_i s hs
    split at h
    · simp at h
    · rename_i hdoc
      obtain rfl := Except.ok.inj h
      refine ⟨⟨rfl, isValueOf_of_caseValue hs, rfl⟩, ?_⟩
      rintro rfl
      simpa [Option.isSome_iff_ne_none] using hdoc

/-! ## Groups -/

/-- The one entry that is no literal names a case of the enum. -/
theorem mem_of_entryOf_eq_ofCase {e : EnumDecl} {v : Value} {name : String}
    (h : entryOf e v = .ok (.ofCase name)) : name ∈ e.cases.map CaseDecl.name := by
  cases v with
  | enumCase className caseName =>
    unfold entryOf at h
    simp only at h
    split at h
    · simp at h
    · split at h
      · simp at h
      · rename_i hcase
        obtain rfl := Entry.ofCase.inj (Except.ok.inj h)
        cases hc : e.case? caseName with
        | none => simp [hc] at hcase
        | some c =>
          have hname := List.find?_some hc
          exact List.mem_map.mpr ⟨c, List.mem_of_find?_eq_some hc, beq_iff_eq.mp hname⟩
  | null | bool | int | float | string | array => simp [entryOf] at h

/-- Keys are positions as soon as their texts are. -/
theorem isList_iff_map_text {entries : List (Key × Value)}
    (h : Value.WellFormed (.array entries)) (hlength : entries.length ≤ 2 ^ 63) :
    Value.isList entries = true ↔ (Ordered.keys entries).map Key.text
      = (List.range entries.length).map fun n ↦ Decimal.ofInt (n : Nat) := by
  have htexts : ((List.range entries.length).map fun n ↦ Key.int (n : Nat)).map Key.text
      = (List.range entries.length).map fun n ↦ Decimal.ofInt (n : Nat) := List.map_map
  rw [Value.isList_iff, ← htexts]
  refine ⟨congrArg (List.map Key.text), Key.map_text_injective ?_ ?_⟩
  · cases h with
    | array _ hnormal _ =>
      intro k hk
      obtain ⟨p, hp, rfl⟩ := List.mem_map.mp hk
      exact hnormal p hp
  · intro k hk
    obtain ⟨n, hn, rfl⟩ := List.mem_map.mp hk
    have hbound := List.mem_range.mp hn
    refine Decimal.fits_iff.mpr ⟨?_, ?_⟩
    · rw [Decimal.minInt]
      omega
    · rw [Decimal.maxInt]
      omega

section Records

variable {registry : Registry} {e : EnumDecl}
  (hregistry : ∀ d ∈ registry.enums, d.IsDeclared) (he : e.IsDeclared)
include hregistry he

theorem isGroupOf_of_groupOf {method : String} {g : Group}
    (h : groupOf registry.caseValue e method = .ok g) : IsGroupOf e method g := by
  have hlookup := Registry.wellFormed_caseValue fun d hd ↦ (hregistry d hd).wellFormed
  obtain ⟨m, entries, hm, hentries, hname, hshape, hes⟩ := exists_of_groupOf h
  have hmethod := he.wellFormed.methods m (List.mem_of_find?_eq_some hm)
  have harray := wellFormed_of_returnedEntries (fun _ _ _ ↦ hlookup _ _ _) hmethod.bodyTokens
    hentries
  refine ⟨⟨m, hm, hname⟩, (Group.wellFormed_of_groupOf hlookup he.wellFormed h).keys, ?_⟩
  intro hlength
  have hsame := (forall₂_of_entriesOf hes).length_eq
  rw [map_fst_of_entriesOf hes, ← hsame, ← isList_iff_map_text harray (hsame ▸ hlength), hshape]
  split <;> simp [*]

end Records

theorem exists_isDeclared {source : String} {target : Target} {r : EnumRecord}
    (h : ((SourceFile.ofSource source).enums.any fun e ↦
      (ofDecl (Registry.ofSources [source]).caseValue target e).toOption == some r) = true) :
    ∃ e : EnumDecl, e.IsDeclared ∧
      ofDecl (Registry.ofSources [source]).caseValue target e = .ok r := by
  obtain ⟨e, he, hr⟩ := List.any_eq_true.mp h
  exact ⟨e, EnumDecl.isDeclared_of_mem he, toOption_eq_some_iff.mp (beq_iff_eq.mp hr)⟩

/-- An enum whose marker asks for comments, for a list and for a group with keys. -/
def shadeSource : String :=
  "<?php\n#[GenerateTs(true, ['all', 'X'])]\nenum Shade: string \x7b " ++
  "/** Full. */ case Dark = 'd'; static function all() \x7b return [self::Dark]; \x7d " ++
  "static function x() \x7b return ['d' => null]; \x7d \x7d"

def shadeTarget : Target := ⟨⟨"out"⟩, "\x7bname\x7d.\x7bext\x7d", .ts⟩

def shadeRecord : EnumRecord where
  name := "Shade"
  qualified := "Shade"
  space := none
  doc := none
  cases := [⟨"Dark", .string "d", some "Full."⟩]
  groups := [⟨"All", .array, [("0", .ofCase "Dark")]⟩, ⟨"X", .record, [("d", .ofScalar .null)]⟩]
  path := ⟨"out/Shade.ts"⟩

end EnumRecord

end FrontendSync
