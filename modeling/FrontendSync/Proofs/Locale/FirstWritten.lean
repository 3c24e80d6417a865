import FrontendSync.Proofs.Locale.Bundle
import FrontendSync.Proofs.Locale.Places

/-!
# Members that are written first

Several members of a map may be replaced by members with one key.  The key stands where it is
written first.  A text gives way to what is there already, anything else takes its place: so the
value is the first one that is written exactly if no member other than a text comes to a key that
already has another value.
-/

namespace FrontendSync.Locale

/-- Of the members that are written, the first one of each key stands in `out`, at its place. -/
structure KeepsFirst (written out : Members) : Prop where
  places : Ordered.keys out = (Ordered.keys written).eraseDups
  values : ∀ k, Ordered.get? k out = Ordered.get? k written

namespace Adapter

open Tree

variable {a : Adapter} {out es ms : Members} {k : String} {t : Tree}

/-- No member other than a text comes to a key for which one before it has written another
value. -/
def OverridesNothing (a : Adapter) (ms : Members) : Prop :=
  ∀ before k t after, ms = before ++ (k, t) :: after → (∀ s, t ≠ .text s) →
    ∀ u, Ordered.get? k (before.flatMap a.entry) = some u → u = a.adapt t

/-! ## One level -/

theorem addMembers_append (out ms more : Members) :
    a.addMembers out (ms ++ more) = a.addMembers (a.addMembers out ms) more := by
  induction ms generalizing out with
  | nil => rfl
  | cons m ms ih =>
    obtain ⟨k, t⟩ := m
    cases t with
    | text s => rw [List.cons_append, addMembers, addMembers, ih]
    | null | bool _ | int _ | float _ | list _ | map _ =>
      rw [List.cons_append, addMembers_cons_of_ne (by simp), addMembers_cons_of_ne (by simp), ih]

/-- Texts are written behind what is there, and what is found there first counts. -/
theorem get?_addNew (k : String) (out es : Members) :
    Ordered.get? k (addNew out es) = (Ordered.get? k out).or (Ordered.get? k es) := by
  induction es generalizing out with
  | nil => exact (Option.or_none).symm
  | cons m es ih =>
    rw [addNew, List.foldl_cons, ← addNew, ih, Ordered.get?]
    by_cases hm : m.1 = k
    · subst hm
      cases hout : Ordered.get? m.1 out with
      | some v => simp [Ordered.contains, hout]
      | none => simp [Ordered.contains, hout, Ordered.get?_insert]
    · rw [if_neg hm]
      split
      · rfl
      · rw [Ordered.get?_insert, if_neg hm]

theorem keys_addNew (out es : Members) :
    Ordered.keys (addNew out es) = Ordered.keys (Ordered.insertAll out es) := by
  induction es generalizing out with
  | nil => rfl
  | cons m es ih =>
    have hcons : Ordered.insertAll out (m :: es)
        = Ordered.insertAll (Ordered.insert m.1 m.2 out) es := rfl
    rw [addNew, List.foldl_cons, ← addNew, ih, hcons]
    split
    · rename_i hm
      have hmem : m.1 ∈ Ordered.keys out := by
        by_contra hmem
        rw [Ordered.contains, Ordered.get?_eq_none_iff.mpr hmem] at hm
        exact Bool.false_ne_true hm
      rw [Ordered.keys_insertAll, Ordered.keys_insertAll, Ordered.keys_insert_of_mem hmem]
    · rfl

/-- Each key has the place where it is written first. -/
theorem keys_addMembers (out ms : Members) :
    Ordered.keys (a.addMembers out ms)
      = Ordered.keys (Ordered.insertAll out (ms.flatMap a.entry)) := by
  induction ms generalizing out with
  | nil => rfl
  | cons m ms ih =>
    have hrest : Ordered.insertAll out ((m :: ms).flatMap a.entry)
        = Ordered.insertAll (Ordered.insertAll out (a.entry m)) (ms.flatMap a.entry) := by
      rw [List.flatMap_cons, Ordered.insertAll, List.foldl_append]
      rfl
    obtain ⟨k, t⟩ := m
    rw [hrest]
    cases t with
    | text s =>
      rw [addMembers, ih, Ordered.keys_insertAll, keys_addNew, ← Ordered.keys_insertAll]
      rfl
    | null | bool _ | int _ | float _ | list _ | map _ =>
      rw [addMembers_cons_of_ne (by simp), ih]
      rfl

/-- A key that only texts have has the value that is written first. -/
theorem get?_addMembers_of_text (h : ∀ t, (k, t) ∈ ms → ∃ s, t = .text s) (out : Members) :
    Ordered.get? k (a.addMembers out ms)
      = (Ordered.get? k out).or (Ordered.get? k (ms.flatMap a.entry)) := by
  induction ms generalizing out with
  | nil => exact (Option.or_none).symm
  | cons m ms ih =>
    have hms : ∀ t, (k, t) ∈ ms → ∃ s, t = .text s := fun t ht ↦ h t (List.mem_cons_of_mem _ ht)
    obtain ⟨j, t⟩ := m
    rw [List.flatMap_cons, Ordered.get?_append, ← Option.or_assoc]
    cases t with
    | text s => rw [addMembers, ih hms, get?_addNew, entry]
    | null | bool _ | int _ | float _ | list _ | map _ =>
      have hj : j ≠ k := by
        rintro rfl
        obtain ⟨s, hs⟩ := h _ List.mem_cons_self
        exact absurd hs (by simp)
      rw [addMembers_cons_of_ne (by simp), ih hms, Ordered.get?_insert, if_neg hj,
        entry_of_ne (by simp), Ordered.get?, if_neg hj, Ordered.get?_nil, Option.or_none]

/-- The key of a member that is no text has the value of this member. -/
theorem get?_transform_of_mem (hms : (Ordered.keys ms).Nodup) (hmem : (k, t) ∈ ms)
    (h : ∀ s, t ≠ .text s) : Ordered.get? k (a.transform ms) = some (a.adapt t) := by
  obtain ⟨before, after, rfl⟩ := List.append_of_mem hmem
  have hafter : ∀ u, (k, u) ∈ after → ∃ s, u = .text s := by
    intro u hu
    rw [Ordered.keys, List.map_append, List.map_cons] at hms
    have hk := (List.nodup_cons.mp (List.nodup_append.mp hms).2.1).1
    exact absurd (List.mem_map_of_mem (f := Prod.fst) hu) hk
  rw [transform, addMembers_append, addMembers_cons_of_ne h, get?_addMembers_of_text hafter,
    Ordered.get?_insert, if_pos rfl, Option.some_or]

/-- What is written for a key up to a member that is no text. -/
theorem get?_flatMap_of_ne (h : ∀ s, t ≠ .text s) (before after : Members) :
    Ordered.get? k ((before ++ (k, t) :: after).flatMap a.entry)
      = (Ordered.get? k (before.flatMap a.entry)).or (some (a.adapt t)) := by
  rw [List.flatMap_append, List.flatMap_cons, entry_of_ne h, Ordered.get?_append,
    List.singleton_append, Ordered.get?, if_pos rfl]

theorem keepsFirst_transform_iff (hms : (Ordered.keys ms).Nodup) :
    KeepsFirst (ms.flatMap a.entry) (a.transform ms) ↔ a.OverridesNothing ms := by
  constructor
  · rintro hkeeps before k t after rfl ht u hu
    have hvalue := hkeeps.values k
    rw [get?_transform_of_mem hms (by simp) ht, get?_flatMap_of_ne ht, hu, Option.some_or] at hvalue
    exact (Option.some.inj hvalue).symm
  · intro hnothing
    refine ⟨?_, fun k ↦ ?_⟩
    · rw [transform, keys_addMembers, ← Ordered.ofList, Ordered.keys_ofList]
    by_cases htext : ∀ t, (k, t) ∈ ms → ∃ s, t = .text s
    · rw [transform, get?_addMembers_of_text htext, Ordered.get?_nil, Option.none_or]
    · push Not at htext
      obtain ⟨t, hmem, ht⟩ := htext
      rw [get?_transform_of_mem hms hmem ht]
      obtain ⟨before, after, rfl⟩ := List.append_of_mem hmem
      rw [get?_flatMap_of_ne ht]
      cases hbefore : Ordered.get? k (before.flatMap a.entry) with
      | none => rfl
      | some u => rw [hnothing before k t after rfl ht u hbefore, Option.some_or]

/-! ## All levels -/

/-- A tree that is no text is adapted at its place. -/
theorem at?_adapt {place : List Step} {u : Tree} (ht : t.WellFormed)
    (hu : t.at? place = some u) (hne : ∀ s, u ≠ .text s) :
    (a.adapt t).at? place = some (a.adapt u) := by
  induction place generalizing t with
  | nil =>
    rw [at?_nil] at hu ⊢
    rw [Option.some.inj hu]
  | cons step place ih =>
    -- a step leads out of a container, so what is above the place is no text either
    have hcontainer {v : Tree} (hv : v.at? place = some u) (s : String) : v ≠ .text s := by
      rintro rfl
      cases place with
      | nil => exact hne s (Option.some.inj hv).symm
      | cons step place => simp [at?] at hv
    rcases at?_cons_eq_some_iff.mp hu with
      ⟨ms, k, v, rfl, rfl, hv, hu⟩ | ⟨ts, i, v, rfl, rfl, hv, hu⟩
    · obtain ⟨hkeys, hmembers⟩ := wellFormed_map_iff.mp ht
      have hmem := Ordered.mem_of_get?_eq_some hv
      rw [adapt, ← transform, at?_key, get?_transform_of_mem hkeys hmem (hcontainer hu),
        Option.bind_some]
      exact ih (hmembers _ hmem) hu
    · rw [adapt, at?_index, adaptItems_eq_map, List.getElem?_map, hv, Option.map_some,
        inList_of_ne (hcontainer hu), Option.bind_some]
      exact ih (wellFormed_list_iff.mp ht v (List.mem_of_getElem? hv)) hu

/-- Wherever a map stands in the data, there stands one with what is written for its members; each
of its keys has the place and the value that are written first exactly if no member other than a
text comes to a key that already has another value. -/
theorem keepsFirst_iff {ls : Members} {place : List Step} (hms : (Tree.map ms).WellFormed)
    (hls : (Tree.map ms).at? place = some (.map ls)) :
    ∃ out, (Tree.map (a.transform ms)).at? place = some (.map out) ∧
      (KeepsFirst (ls.flatMap a.entry) out ↔ a.OverridesNothing ls) :=
  ⟨a.transform ls, at?_adapt hms hls (by simp),
    keepsFirst_transform_iff (wellFormed_map_iff.mp (hms.of_at? hls)).1⟩

/-- A number before and a text behind the plural text that is written under their keys. -/
def mixedLevel : Members :=
  [("item_other", .int 5), ("item", .text "a|b"), ("item_one", .text "x")]

theorem overridesNothing_mixedLevel : i18next.OverridesNothing mixedLevel := by
  intro before k t after heq ht u hu
  match before with
  | [] => simp at hu
  | [_] =>
    obtain ⟨-, ⟨-, rfl⟩, -⟩ := by simpa [mixedLevel] using heq
    exact absurd rfl (ht "a|b")
  | [_, _] =>
    obtain ⟨-, -, ⟨-, rfl⟩, -⟩ := by simpa [mixedLevel] using heq
    exact absurd rfl (ht "x")
  | _ :: _ :: _ :: before => simp [mixedLevel] at heq

theorem keepsFirst_mixedLevel :
    (Tree.map [("menu", .list [.map mixedLevel])]).WellFormed ∧
      (Tree.map [("menu", .list [.map mixedLevel])]).at? [.key "menu", .index 0]
        = some (.map mixedLevel) ∧
      ∃ out, (Tree.map (i18next.transform [("menu", .list [.map mixedLevel])])).at?
          [.key "menu", .index 0] = some (.map out) ∧
        KeepsFirst (mixedLevel.flatMap i18next.entry) out := by
  have hwell : (Tree.map [("menu", .list [.map mixedLevel])]).WellFormed := by
    simp [mixedLevel, Ordered.keys]
    decide
  have hmap : (Tree.map [("menu", .list [.map mixedLevel])]).at? [.key "menu", .index 0]
      = some (.map mixedLevel) := rfl
  obtain ⟨out, hout, hkeeps⟩ := keepsFirst_iff (a := i18next) hwell hmap
  exact ⟨hwell, hmap, out, hout, hkeeps.mpr overridesNothing_mixedLevel⟩

/-- A number behind the plural text that is written under its key. -/
def takenLevel : Members := [("item", .text "a|b"), ("item_one", .int 5)]

/-- The number takes the place of the text that is written first. -/
theorem not_keepsFirst_takenLevel :
    ¬ KeepsFirst (takenLevel.flatMap i18next.entry) (i18next.transform takenLevel) := by
  intro hkeeps
  have hfirst : (Ordered.get? "item_one" (takenLevel.flatMap i18next.entry)).map
      (· matches .int _) = some false := by decide +kernel
  have hlast : (Ordered.get? "item_one" (i18next.transform takenLevel)).map
      (· matches .int _) = some true := by decide +kernel
  rw [hkeeps.values, hfirst] at hlast
  exact Bool.false_ne_true (Option.some.inj hlast)

end Adapter

end FrontendSync.Locale
