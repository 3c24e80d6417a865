import FrontendSync.Project.Sources
import FrontendSync.Proofs.Lists
import FrontendSync.Proofs.Php.EnumNames
import FrontendSync.Proofs.Registry

/-!
# Registered findings

An enum that the scan finds in a source is registered if the reader declares it as well.
-/

namespace FrontendSync

open Php

namespace Registry

/-- Enums of which no two have one name are all registered. -/
theorem enums_registerAll {r : Registry} {es : List EnumDecl}
    (hes : es.Pairwise fun e d ↦ Name.same e.qualified d.qualified = false)
    (hr : ∀ e ∈ es, r.contains e.qualified = false) : (r.registerAll es).enums = r.enums ++ es := by
  induction es generalizing r with
  | nil => exact (List.append_nil _).symm
  | cons e es ih =>
    obtain ⟨hnew, hmore⟩ := List.forall_mem_cons.mp hr
    obtain ⟨he, hes⟩ := List.pairwise_cons.mp hes
    have hregister : (r.register e).enums = r.enums ++ [e] := by
      rw [enums_register, hnew]
      rfl
    rw [registerAll, List.foldl_cons, ← registerAll, ih hes, hregister, List.append_assoc]
    · rfl
    · intro d hd
      have hold := hmore d hd
      rw [contains_eq_any] at hold ⊢
      rw [hregister, List.any_append, hold, List.any_cons, he d hd]
      rfl

end Registry

namespace Finding

/-- The scan and the reader agree on the names of a source. -/
def Agree (source : String) : Prop :=
  (SourceFile.ofSource source).enums.map EnumDecl.qualified = EnumNames.ofSource source

/-- An enum is registered for a finding, under its name and with its file. -/
def RegisteredAs (e : EnumDecl) (f : Finding) : Prop :=
  Name.same e.qualified f.qualified ∧ e.file = f.path.text

theorem exists_located?_of_mem_ofSource {path : Path} {source : String} (h : Agree source)
    {f : Finding} (hf : f ∈ ofSource path source) :
    ∃ e, f.located? = some e ∧ RegisteredAs e f := by
  obtain ⟨name, hname, rfl⟩ := List.mem_map.mp hf
  obtain ⟨d, hd, rfl⟩ := List.mem_map.mp (h ▸ hname)
  have hfound : ((SourceFile.ofSource source).enums.find? fun e ↦
      Name.same e.qualified d.qualified).isSome :=
    List.find?_isSome.mpr ⟨d, hd, by simp [Name.same]⟩
  obtain ⟨e, he⟩ := Option.isSome_iff_exists.mp hfound
  have hsame := List.find?_some he
  exact ⟨{ e with file := path.text }, congrArg (Option.map _) he, hsame, rfl⟩

theorem forall₂_filterMap_located? {fs : List Finding}
    (h : ∀ f ∈ fs, ∃ e, f.located? = some e ∧ RegisteredAs e f) :
    List.Forall₂ RegisteredAs (fs.filterMap located?) fs := by
  induction fs with
  | nil => exact .nil
  | cons f fs ih =>
    obtain ⟨⟨e, he, hf⟩, hfs⟩ := List.forall_mem_cons.mp h
    rw [List.filterMap_cons_some he]
    exact .cons hf (ih hfs)

theorem pairwise_filterMap_located? {fs : List Finding}
    (h : ∀ f ∈ fs, ∃ e, f.located? = some e ∧ RegisteredAs e f)
    (hfs : fs.Pairwise fun f g ↦ Name.same g.qualified f.qualified = false) :
    (fs.filterMap located?).Pairwise fun e d ↦ Name.same e.qualified d.qualified = false := by
  refine List.pairwise_filterMap.mpr (hfs.imp_of_mem fun hf hg hapart e he d hd ↦ ?_)
  obtain ⟨e', he', hnameE, -⟩ := h _ hf
  obtain ⟨d', hd', hnameD, -⟩ := h _ hg
  obtain rfl : e = e' := Option.some.inj (he.symm.trans he')
  obtain rfl : d = d' := Option.some.inj (hd.symm.trans hd')
  simp only [Name.same, beq_iff_eq, beq_eq_false_iff_ne] at hnameE hnameD hapart ⊢
  rw [hnameE, hnameD]
  exact hapart.symm

/-- Every finding of files on which the scan and the reader agree is registered. -/
theorem forall₂_registered {d : Disk} {files : List Path}
    (h : ∀ p ∈ files, ∀ source, d.text? p = some source → Agree source) :
    List.Forall₂ RegisteredAs (Registry.ofFindings (all d files)).enums (all d files) := by
  have hlocated : ∀ f ∈ all d files, ∃ e, f.located? = some e ∧ RegisteredAs e f := by
    intro f hf
    obtain ⟨p, hp, hf⟩ := List.mem_flatMap.mp ((eraseDupsBy_sublist _ _).subset hf)
    cases hsource : d.text? p with
    | none => simp [hsource] at hf
    | some source =>
      rw [hsource] at hf
      exact exists_located?_of_mem_ofSource (h p hp source hsource) hf
  have hrows := forall₂_filterMap_located? hlocated
  have happart := pairwise_filterMap_located? hlocated (pairwise_eraseDupsBy _ _)
  rw [Registry.ofFindings, Registry.enums_registerAll happart (fun _ _ ↦ rfl)]
  exact hrows

/-- In sources in which every word for an enum with a name behind it is the head of an enum, the
declared names are the scanned ones exactly if at each step of the reader the scan has its
namespace and finds nothing in what the step passes over.  Where the names of all files agree,
every enum that is found is registered. -/
theorem agree_iff_and_registered (source : String) (d : Disk) (files : List Path) :
    ((∀ stop ∈ SourceFile.stopsOfSource source, stop.IsHead) →
        (Agree source ↔ ∀ stop ∈ SourceFile.stopsOfSource source, stop.Agrees)) ∧
      ((∀ p ∈ files, ∀ source, d.text? p = some source → Agree source) →
        List.Forall₂ RegisteredAs (Registry.ofFindings (all d files)).enums (all d files)) :=
  ⟨SourceFile.qualified_eq_ofSource_iff, forall₂_registered⟩

/-- Two blocks, with the word for an enum as the name of a case and of a member. -/
def blocksSource : String :=
  "<?php namespace A \x7b enum K \x7b case Enum; function f() \x7b $x->enum; \x7d \x7d \x7d
  namespace \x7b enum L \x7b\x7d \x7d"

def blocksDisk : Disk := ⟨.dir [("K.php", .file blocksSource.toUTF8)]⟩

theorem agree_and_registered_blocksSource :
    (∀ stop ∈ SourceFile.stopsOfSource blocksSource, stop.Agrees) ∧
      List.Forall₂ RegisteredAs (Registry.ofFindings (all blocksDisk [⟨"K.php"⟩])).enums
        (all blocksDisk [⟨"K.php"⟩]) ∧
      EnumNames.ofSource blocksSource = ["A\\K", "L"] := by
  have hagree : Agree blocksSource := by unfold Agree; decide +kernel
  obtain ⟨hstops, hregistered⟩ := agree_iff_and_registered blocksSource blocksDisk [⟨"K.php"⟩]
  refine ⟨(hstops (by decide +kernel)).mp hagree, hregistered ?_, by decide +kernel⟩
  rintro p hp source hsource
  obtain rfl := List.mem_singleton.mp hp
  have htext : blocksDisk.text? ⟨"K.php"⟩ = some blocksSource := by decide +kernel
  obtain rfl := Option.some.inj (htext.symm.trans hsource)
  exact hagree

/-- A case named like the word for a namespace. -/
def keywordSource : String :=
  "<?php namespace A; enum K \x7b case Namespace; \x7d enum L \x7b\x7d"

def keywordDisk : Disk := ⟨.dir [("K.php", .file keywordSource.toUTF8)]⟩

/-- The scan leaves the namespace at the case, and the enum behind it is found under a name under
which it is not declared, so it is not registered. -/
theorem not_agree_keywordSource :
    (∀ stop ∈ SourceFile.stopsOfSource keywordSource, stop.IsHead) ∧
      (SourceFile.ofSource keywordSource).enums.map EnumDecl.qualified
        = ["A\\K", "A\\L"] ∧
      EnumNames.ofSource keywordSource = ["A\\K", "L"] ∧
      (all keywordDisk [⟨"K.php"⟩]).map qualified = ["A\\K", "L"] ∧
      (Registry.ofFindings (all keywordDisk [⟨"K.php"⟩])).enums.map EnumDecl.qualified
        = ["A\\K"] := by
  decide +kernel

end Finding

end FrontendSync
