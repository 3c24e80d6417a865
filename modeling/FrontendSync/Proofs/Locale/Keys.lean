import FrontendSync.Proofs.Locale.Bundle
import FrontendSync.Proofs.Number.Decimal

/-!
# Keys of a bundle

Every key of the data of a locale, at whatever depth, has one segment only.  Shortening makes it so,
an adapter puts nothing but a form behind a key, and joined keys are made of keys, dots and
positions.
-/

namespace FrontendSync

namespace Php.Name

/-- A name of one segment. -/
def IsShort (name : String) : Prop := '\\' ∉ name.toList

instance (name : String) : Decidable (IsShort name) := inferInstanceAs (Decidable (_ ∉ _))

theorem isShort_short (name : String) : IsShort (short name) := by
  intro hmem
  rw [short, String.toList_ofList, List.mem_reverse] at hmem
  simpa using List.all_eq_true.mp List.all_takeWhile _ hmem

@[simp] theorem isShort_append {k j : String} : IsShort (k ++ j) ↔ IsShort k ∧ IsShort j := by
  simp [IsShort]

theorem isShort_ofNat (n : Nat) : IsShort (Decimal.ofNat n) := by
  intro hmem
  rw [Decimal.ofNat, String.toList_ofList] at hmem
  exact absurd (Decimal.isDigit_of_mem_digits hmem) (by decide)

end Php.Name

open Php.Name (IsShort)

namespace Tree

mutual

/-- The keys of a tree at every depth. -/
def deepKeys : Tree → List String
  | map ms => memberKeys ms
  | list ts => itemKeys ts
  | _ => []

def memberKeys : Members → List String
  | [] => []
  | (k, t) :: ms => k :: (deepKeys t ++ memberKeys ms)

def itemKeys : List Tree → List String
  | [] => []
  | t :: ts => deepKeys t ++ itemKeys ts

end

/-- Every key of a tree has one segment. -/
def HasShortKeys (t : Tree) : Prop := ∀ k ∈ deepKeys t, IsShort k

theorem forall_mem_deepKeys_map_iff {P : String → Prop} {ms : Members} :
    (∀ k ∈ deepKeys (.map ms), P k) ↔ ∀ m ∈ ms, P m.1 ∧ ∀ k ∈ deepKeys m.2, P k := by
  rw [deepKeys]
  induction ms with
  | nil => simp [memberKeys]
  | cons m ms ih =>
    rw [memberKeys, List.forall_mem_cons, List.forall_mem_append, ih, List.forall_mem_cons,
      and_assoc]

theorem forall_mem_deepKeys_list_iff {P : String → Prop} {ts : List Tree} :
    (∀ k ∈ deepKeys (.list ts), P k) ↔ ∀ t ∈ ts, ∀ k ∈ deepKeys t, P k := by
  rw [deepKeys]
  induction ts with
  | nil => simp [itemKeys]
  | cons t ts ih => rw [itemKeys, List.forall_mem_append, ih, List.forall_mem_cons]

theorem hasShortKeys_map_iff {ms : Members} :
    HasShortKeys (.map ms) ↔ ∀ m ∈ ms, IsShort m.1 ∧ HasShortKeys m.2 :=
  forall_mem_deepKeys_map_iff

theorem hasShortKeys_list_iff {ts : List Tree} :
    HasShortKeys (.list ts) ↔ ∀ t ∈ ts, HasShortKeys t := forall_mem_deepKeys_list_iff

theorem hasShortKeys_map_cons_iff {m : String × Tree} {ms : Members} :
    HasShortKeys (.map (m :: ms)) ↔ (IsShort m.1 ∧ HasShortKeys m.2) ∧ HasShortKeys (.map ms) := by
  rw [hasShortKeys_map_iff, List.forall_mem_cons, ← hasShortKeys_map_iff]

theorem hasShortKeys_map_append_iff {ms more : Members} :
    HasShortKeys (.map (ms ++ more)) ↔ HasShortKeys (.map ms) ∧ HasShortKeys (.map more) := by
  rw [hasShortKeys_map_iff, List.forall_mem_append, ← hasShortKeys_map_iff, ← hasShortKeys_map_iff]

theorem hasShortKeys_list_cons_iff {t : Tree} {ts : List Tree} :
    HasShortKeys (.list (t :: ts)) ↔ HasShortKeys t ∧ HasShortKeys (.list ts) := by
  rw [hasShortKeys_list_iff, List.forall_mem_cons, ← hasShortKeys_list_iff]

theorem hasShortKeys_of_deepKeys {t : Tree} (h : deepKeys t = []) : HasShortKeys t := fun k hk ↦ by
  simp [h] at hk

theorem HasShortKeys.insert {k : String} {t : Tree} {ms : Members} (hms : HasShortKeys (.map ms))
    (hk : IsShort k) (ht : HasShortKeys t) : HasShortKeys (.map (Ordered.insert k t ms)) := by
  refine hasShortKeys_map_iff.mpr fun m hm ↦ ?_
  rcases Ordered.eq_or_mem_of_mem_insert hm with rfl | hm
  · exact ⟨hk, ht⟩
  · exact hasShortKeys_map_iff.mp hms m hm

/-- Members put in order are some of the members. -/
theorem HasShortKeys.ofList {ms : Members} (h : HasShortKeys (.map ms)) :
    HasShortKeys (.map (Ordered.ofList ms)) := by
  refine hasShortKeys_map_iff.mpr fun m hm ↦ ?_
  have hm := (Ordered.mem_or_mem_of_mem_insertAll hm).resolve_left List.not_mem_nil
  exact hasShortKeys_map_iff.mp h m hm

/-! ## Shortening -/

mutual

theorem hasShortKeys_shortKeys (t : Tree) : HasShortKeys (shortKeys t) := by
  match t with
  | map ms => exact (hasShortKeys_shortMembers ms).ofList
  | list ts => exact hasShortKeys_shortItems ts
  | null | bool _ | int _ | float _ | text _ => exact hasShortKeys_of_deepKeys rfl

theorem hasShortKeys_shortMembers (ms : Members) : HasShortKeys (.map (shortMembers ms)) := by
  match ms with
  | [] => exact hasShortKeys_of_deepKeys rfl
  | (k, t) :: ms =>
    rw [shortMembers, hasShortKeys_map_cons_iff]
    exact ⟨⟨Php.Name.isShort_short k, hasShortKeys_shortKeys t⟩, hasShortKeys_shortMembers ms⟩

theorem hasShortKeys_shortItems (ts : List Tree) : HasShortKeys (.list (shortItems ts)) := by
  match ts with
  | [] => exact hasShortKeys_of_deepKeys rfl
  | t :: ts =>
    rw [shortItems, hasShortKeys_list_cons_iff]
    exact ⟨hasShortKeys_shortKeys t, hasShortKeys_shortItems ts⟩

end

theorem hasShortKeys_normalize (ms : Members) : HasShortKeys (.map (normalize ms)) :=
  hasShortKeys_shortKeys (.map ms)

/-! ## Joining -/

theorem isShort_joinKey {path : Option String} (hpath : ∀ p ∈ path, IsShort p) {k : String}
    (hk : IsShort k) : IsShort (joinKey path k) := by
  cases path with
  | none => exact hk
  | some p =>
    have hdot : IsShort "." := by decide +kernel
    simp only [joinKey, Php.Name.isShort_append]
    exact ⟨⟨hpath p rfl, hdot⟩, hk⟩

theorem isShort_getD {path : Option String} (hpath : ∀ p ∈ path, IsShort p) :
    IsShort (path.getD "") := by
  cases path with
  | none => exact List.not_mem_nil
  | some p => exact hpath p rfl

mutual

theorem hasShortKeys_leaves {path : Option String} (hpath : ∀ p ∈ path, IsShort p) {t : Tree}
    (h : HasShortKeys t) : HasShortKeys (.map (leaves path t)) := by
  match t with
  | map [] | list [] | null | bool _ | int _ | float _ | text _ =>
    refine hasShortKeys_map_iff.mpr (List.forall_mem_singleton.mpr ?_)
    exact ⟨isShort_getD hpath, h⟩
  | map (m :: ms) => exact hasShortKeys_memberLeaves hpath h
  | list (t :: ts) => exact hasShortKeys_itemLeaves hpath 0 h

theorem hasShortKeys_memberLeaves {path : Option String} (hpath : ∀ p ∈ path, IsShort p)
    {ms : Members} (h : HasShortKeys (.map ms)) :
    HasShortKeys (.map (memberLeaves path ms)) := by
  match ms with
  | [] => exact h
  | (k, t) :: ms =>
    obtain ⟨⟨hk, ht⟩, hms⟩ := hasShortKeys_map_cons_iff.mp h
    have hjoined : ∀ p ∈ some (joinKey path k), IsShort p := by
      rintro _ ⟨⟩
      exact isShort_joinKey hpath hk
    rw [memberLeaves, hasShortKeys_map_append_iff]
    exact ⟨hasShortKeys_leaves hjoined ht, hasShortKeys_memberLeaves hpath hms⟩

theorem hasShortKeys_itemLeaves {path : Option String} (hpath : ∀ p ∈ path, IsShort p) (n : Nat)
    {ts : List Tree} (h : HasShortKeys (.list ts)) :
    HasShortKeys (.map (itemLeaves path n ts)) := by
  match ts with
  | [] => exact h
  | t :: ts =>
    obtain ⟨ht, hts⟩ := hasShortKeys_list_cons_iff.mp h
    have hjoined : ∀ p ∈ some (joinKey path (Decimal.ofNat n)), IsShort p := by
      rintro _ ⟨⟩
      exact isShort_joinKey hpath (Php.Name.isShort_ofNat n)
    rw [itemLeaves, hasShortKeys_map_append_iff]
    exact ⟨hasShortKeys_leaves hjoined ht, hasShortKeys_itemLeaves hpath (n + 1) hts⟩

end

theorem HasShortKeys.flatten {ms : Members} (h : HasShortKeys (.map ms)) :
    HasShortKeys (.map (flatten (.map ms))) := by
  have hnone : ∀ p ∈ (none : Option String), IsShort p := fun _ hp ↦ by contradiction
  exact (hasShortKeys_leaves hnone h).ofList

end Tree

/-! ## Adapting -/

namespace Locale.Adapter

open Tree

/-- Behind a key of one segment an adapter gives keys of one segment. -/
def KeepsShort (a : Adapter) : Prop :=
  ∀ k s, IsShort k → HasShortKeys (.map (a.expand k s))

theorem IsSingular.keepsShort {a : Adapter} (h : a.IsSingular) : a.KeepsShort := by
  intro k s hk
  obtain ⟨s', hs'⟩ := h k s
  rw [hs', hasShortKeys_map_iff, List.forall_mem_singleton]
  exact ⟨hk, hasShortKeys_of_deepKeys rfl⟩

theorem keepsShort_i18next : i18next.KeepsShort := by
  intro k s hk
  refine hasShortKeys_map_iff.mpr fun m hm ↦ ?_
  simp only [i18next] at hm
  split at hm
  · obtain ⟨⟨form, text⟩, -, rfl⟩ := List.mem_map.mp hm
    have hbar : IsShort "_" := by decide +kernel
    have hsuffix : IsShort form.suffix := by cases form <;> decide +kernel
    refine ⟨?_, hasShortKeys_of_deepKeys rfl⟩
    simp only [Php.Name.isShort_append]
    exact ⟨⟨hk, hbar⟩, hsuffix⟩
  · obtain rfl := List.mem_singleton.mp hm
    exact ⟨hk, hasShortKeys_of_deepKeys rfl⟩

theorem keepsShort_of_mem {a : Adapter} (h : a ∈ [i18next, vueI18n, passthrough, source]) :
    a.KeepsShort := by
  rcases List.mem_cons.mp h with rfl | h
  · exact keepsShort_i18next
  · exact (isSingular_of_mem h).keepsShort

theorem hasShortKeys_addNew {out ms : Members} (hout : HasShortKeys (.map out))
    (hms : HasShortKeys (.map ms)) : HasShortKeys (.map (addNew out ms)) := by
  induction ms generalizing out with
  | nil => exact hout
  | cons m ms ih =>
    obtain ⟨⟨hk, ht⟩, hms⟩ := hasShortKeys_map_cons_iff.mp hms
    rw [addNew, List.foldl_cons]
    split
    · exact ih hout hms
    · exact ih (hout.insert hk ht) hms

variable {a : Adapter}

/-- A text in a list stands under the empty key for a moment. -/
theorem hasShortKeys_item (ha : a.KeepsShort) (s : String) : HasShortKeys (a.item s) := by
  have hexpand := ha "" s List.not_mem_nil
  rw [item]
  split
  · rename_i k t heq
    rw [heq, hasShortKeys_map_iff, List.forall_mem_singleton] at hexpand
    exact hexpand.2
  · exact hasShortKeys_of_deepKeys rfl

mutual

theorem hasShortKeys_addMembers (ha : a.KeepsShort) {out ms : Members}
    (hout : HasShortKeys (.map out)) (hms : HasShortKeys (.map ms)) :
    HasShortKeys (.map (a.addMembers out ms)) := by
  match ms with
  | [] => exact hout
  | (k, t) :: ms =>
    obtain ⟨⟨hk, ht⟩, hrest⟩ := hasShortKeys_map_cons_iff.mp hms
    match t with
    | .text s =>
      rw [addMembers]
      exact hasShortKeys_addMembers ha (hasShortKeys_addNew hout (ha k s hk)) hrest
    | .null | .bool _ | .int _ | .float _ | .list _ | .map _ =>
      rw [addMembers_cons_of_ne (by simp)]
      exact hasShortKeys_addMembers ha (hout.insert hk (hasShortKeys_adapt ha ht)) hrest

theorem hasShortKeys_adapt (ha : a.KeepsShort) {t : Tree} (h : HasShortKeys t) :
    HasShortKeys (a.adapt t) := by
  match t with
  | .map ms => exact hasShortKeys_addMembers ha (hasShortKeys_of_deepKeys rfl) h
  | .list ts => exact hasShortKeys_adaptItems ha h
  | .null | .bool _ | .int _ | .float _ | .text _ => exact h

theorem hasShortKeys_adaptItems (ha : a.KeepsShort) {ts : List Tree}
    (h : HasShortKeys (.list ts)) : HasShortKeys (.list (a.adaptItems ts)) := by
  match ts with
  | [] => exact h
  | t :: ts =>
    obtain ⟨ht, hts⟩ := hasShortKeys_list_cons_iff.mp h
    have hrest := hasShortKeys_adaptItems ha hts
    match t with
    | .text s =>
      rw [adaptItems, hasShortKeys_list_cons_iff]
      exact ⟨hasShortKeys_item ha s, hrest⟩
    | .null | .bool _ | .int _ | .float _ | .list _ | .map _ =>
      rw [adaptItems, hasShortKeys_list_cons_iff]
      · exact ⟨hasShortKeys_adapt ha ht, hrest⟩
      · simp

end

end Locale.Adapter

namespace Locale

theorem hasShortKeys_shaped {a : Adapter} (ha : a.KeepsShort) (flat : Bool) (ms : Members) :
    (Tree.map (shaped a flat ms)).HasShortKeys := by
  have hempty : (Tree.map []).HasShortKeys := Tree.hasShortKeys_of_deepKeys rfl
  have hadapted : (Tree.map (a.transform (Tree.normalize ms))).HasShortKeys :=
    Adapter.hasShortKeys_addMembers ha hempty (Tree.hasShortKeys_normalize ms)
  rw [shaped]
  split
  · exact hadapted.flatten
  · exact hadapted

end Locale

namespace Bundle

open FrontendSync.Locale Adapter Tree

/-- A locale that is found has data, and no key of it contains a backslash at any depth. -/
theorem backslash_notMem_of_mem_deepKeys_load {d : Disk} {lookup : Lookup} {roots : List Path}
    {locale : String} {ms : Members} (h : ofRoots d lookup roots locale = .ok ms) {a : Adapter}
    (ha : a ∈ [i18next, vueI18n, passthrough, source]) (flat : Bool) (target : Target) :
    ∃ b, load d lookup roots a flat target locale = .ok b ∧
      ∀ k ∈ deepKeys (.map b.data), '\\' ∉ k.toList := by
  refine ⟨⟨locale, shaped a flat ms, target.path locale⟩, by rw [load, h]; rfl, ?_⟩
  exact hasShortKeys_shaped (keepsShort_of_mem ha) flat ms

/-- A qualified key in a map in a list, with a text that becomes two. -/
def listDisk : Disk :=
  jsonDisk "\x7b\"menu\": [\x7b\"App\\\\Item\": \":n item|:n items\"\x7d]\x7d"

theorem backslash_notMem_of_mem_deepKeys_load_listDisk :
    ∃ ms b, ofRoots listDisk (fun _ _ ↦ none) [⟨"lang"⟩] "en" = .ok ms ∧
      deepKeys (.map ms) = ["menu", "App\\Item"] ∧
      load listDisk (fun _ _ ↦ none) [⟨"lang"⟩] i18next true enTarget "en" = .ok b ∧
      deepKeys (.map b.data) = ["menu.0.Item_one", "menu.0.Item_other"] ∧
        ∀ k ∈ deepKeys (.map b.data), '\\' ∉ k.toList := by
  have hraw : (ofRoots listDisk (fun _ _ ↦ none) [⟨"lang"⟩] "en").toOption.map
      (fun ms ↦ deepKeys (.map ms)) = some ["menu", "App\\Item"] := by decide +kernel
  have hdata : (load listDisk (fun _ _ ↦ none) [⟨"lang"⟩] i18next true enTarget "en").toOption.map
      (fun b ↦ deepKeys (.map b.data)) = some ["menu.0.Item_one", "menu.0.Item_other"] := by
    decide +kernel
  obtain ⟨ms, hms, hraw⟩ := Option.map_eq_some_iff.mp hraw
  obtain ⟨b, hb, hdata⟩ := Option.map_eq_some_iff.mp hdata
  have hms := toOption_eq_some_iff.mp hms
  have hb := toOption_eq_some_iff.mp hb
  obtain ⟨b', hb', hkeys⟩ :=
    backslash_notMem_of_mem_deepKeys_load hms List.mem_cons_self true enTarget
  obtain rfl : b = b' := Except.ok.inj (hb.symm.trans hb')
  exact ⟨ms, b, hms, hraw, hb, hdata, hkeys⟩

end Bundle

end FrontendSync
