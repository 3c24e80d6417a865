import FrontendSync.Proofs.Lists
import FrontendSync.Proofs.Locale.Bundle
import FrontendSync.Proofs.Text.Pieces
import Mathlib.Data.List.Perm.Subperm

/-!
# Plural texts as members

The adapter for i18next replaces a plural text by a member for each form that it has.  As long as no
key of a map is another one with the suffix of a form, the members of different keys stay apart, so
each level is the members of its keys one after the other.
-/

namespace FrontendSync.Locale

/-! ## Forms of a plural text -/

/-- The forms that the segments of a text select, each with its text: the form of a marker, and
without one that of one for the first segment and that of others for the rest. -/
def selected (s : String) : List (PluralForm × List Char) :=
  (segments s.toList).mapIdx fun i segment ↦
    (segment.form.getD (if i = 0 then .one else .other), segment.text)

/-- The text of the first of some segments that selects a form. -/
def firstText (xs : List (PluralForm × List Char)) (form : PluralForm) : List Char :=
  (Ordered.get? form xs).getD []

/-- A text with its parameters between two braces. -/
def braced (s : List Char) : String := String.ofList (Brackets.double.substitute s)

/-- The key of a form. -/
def PluralForm.keyOf (k : String) (form : PluralForm) : String := k ++ "_" ++ form.suffix

/-- The members that replace a plural text: one for each form that is selected, in the order in
which they are selected first, with the text of the first segment that selects it. -/
structure IsPluralExpansion (k s : String) (es : Members) : Prop where
  forms : es = (Ordered.keys (selected s)).eraseDups.map fun form ↦
    (form.keyOf k, .text (braced (firstText (selected s) form)))
  nonempty : 1 ≤ es.length
  atMost : es.length ≤ 3

section Forms

variable {xs : List (PluralForm × List Char)} {seen : List PluralForm} {x : PluralForm × List Char}

/-- The forms of some segments that are not among the ones before them, with their texts. -/
def newForms (seen : List PluralForm) (xs : List (PluralForm × List Char)) :
    List (PluralForm × List Char) :=
  ((Ordered.keys xs).filter (· ∉ seen)).eraseDups.map fun form ↦ (form, firstText xs form)

theorem firstText_cons_of_ne {form : PluralForm} (h : form ≠ x.1) :
    firstText (x :: xs) form = firstText xs form := by
  rw [firstText, Ordered.get?, if_neg h.symm, firstText]

theorem newForms_cons_of_mem (hx : x.1 ∈ seen) : newForms seen (x :: xs) = newForms seen xs := by
  have hkeys : (Ordered.keys (x :: xs)).filter (· ∉ seen) = (Ordered.keys xs).filter (· ∉ seen) :=
    List.filter_cons_of_neg (by simpa using hx)
  rw [newForms, newForms, hkeys]
  refine List.map_congr_left fun form hform ↦ ?_
  have hnew : form ∉ seen := by
    have hform := (eraseDupsBy_sublist _ _).subset hform
    exact of_decide_eq_true (List.mem_filter.mp hform).2
  have hne : form ≠ x.1 := fun heq ↦ hnew (heq ▸ hx)
  rw [firstText_cons_of_ne hne]

theorem newForms_cons_of_notMem (hx : x.1 ∉ seen) :
    newForms seen (x :: xs) = x :: newForms (x.1 :: seen) xs := by
  have hkeys : (Ordered.keys (x :: xs)).filter (· ∉ seen)
      = x.1 :: (Ordered.keys xs).filter (· ∉ seen) := List.filter_cons_of_pos (by simpa using hx)
  have hrest : ((Ordered.keys xs).filter (· ∉ seen)).filter (fun form ↦ !form == x.1)
      = (Ordered.keys xs).filter (· ∉ x.1 :: seen) := by
    rw [List.filter_filter]
    refine List.filter_congr fun form _ ↦ ?_
    by_cases hform : form = x.1 <;> simp [hform]
  have hhead : firstText (x :: xs) x.1 = x.2 := by simp [firstText, Ordered.get?]
  rw [newForms, hkeys, List.eraseDups_cons, hrest, List.map_cons, hhead, newForms]
  refine congrArg _ (List.map_congr_left fun form hform ↦ ?_)
  have hnew : form ∉ x.1 :: seen := by
    have hform := (eraseDupsBy_sublist _ _).subset hform
    exact of_decide_eq_true (List.mem_filter.mp hform).2
  rw [firstText_cons_of_ne (List.ne_of_not_mem_cons hnew)]

theorem forms_rest (seen : List PluralForm) (segments : List Segment) :
    Adapter.forms seen false segments
      = newForms seen (segments.map fun s ↦ (s.form.getD .other, s.text)) := by
  induction segments generalizing seen with
  | nil => rfl
  | cons s segments ih =>
    rw [Adapter.forms, List.map_cons]
    simp only [Bool.false_eq_true, if_false]
    split
    · rename_i hseen
      rw [newForms_cons_of_mem hseen, ih]
    · rename_i hseen
      rw [newForms_cons_of_notMem hseen, ih]

theorem forms_segments (s : String) :
    Adapter.forms [] true (segments s.toList) = newForms [] (selected s) := by
  rw [selected]
  cases segments s.toList with
  | nil => rfl
  | cons s segments =>
    have hrest : segments.mapIdx (fun i segment ↦
        (segment.form.getD (if i + 1 = 0 then .one else .other), segment.text))
          = segments.map fun segment ↦ (segment.form.getD .other, segment.text) :=
      List.ext_getElem? fun i ↦ by simp
    rw [Adapter.forms, List.mapIdx_cons, newForms_cons_of_notMem List.not_mem_nil, hrest]
    simp [forms_rest]

end Forms

theorem selected_ne_nil (s : String) : selected s ≠ [] := by
  simp [selected, segments, Text.pieces_ne_nil]

theorem length_le_three {forms : List PluralForm} (h : forms.Nodup) : forms.length ≤ 3 := by
  have hall : forms ⊆ [.zero, .one, .other] := fun form _ ↦ by cases form <;> simp
  exact (h.subperm hall).length_le

theorem isPluralExpansion_expand (k : String) {s : String} (h : isPlural s.toList = true) :
    IsPluralExpansion k s (Adapter.i18next.expand k s) := by
  have hforms : Adapter.i18next.expand k s = (Ordered.keys (selected s)).eraseDups.map fun form ↦
      (form.keyOf k, .text (braced (firstText (selected s) form))) := by
    have hnew : (Ordered.keys (selected s)).filter (· ∉ ([] : List PluralForm))
        = Ordered.keys (selected s) := List.filter_eq_self.mpr (by simp)
    simp only [Adapter.i18next, h, if_true, forms_segments, newForms, hnew, List.map_map]
    rfl
  refine ⟨hforms, ?_, ?_⟩
  · rw [hforms, List.length_map]
    obtain ⟨x, hx⟩ := List.exists_mem_of_ne_nil _ (selected_ne_nil s)
    obtain ⟨y, hy, -⟩ := exists_mem_eraseDupsBy (· == ·) (List.mem_map_of_mem (f := Prod.fst) hx)
    exact List.length_pos_of_mem hy
  · rw [hforms, List.length_map]
    exact length_le_three (nodup_eraseDups _)

/-! ## Keys of forms -/

theorem PluralForm.toList_keyOf (k : String) (form : PluralForm) :
    (form.keyOf k).toList = k.toList ++ '_' :: form.suffix.toList := by
  simp [keyOf, String.toList_append]

/-- The suffixes differ in their last letters. -/
theorem PluralForm.getLast?_suffix_inj {f g : PluralForm}
    (h : f.suffix.toList.getLast? = g.suffix.toList.getLast?) : f = g := by
  revert h
  cases f <;> cases g <;> decide +kernel

theorem PluralForm.keyOf_inj {j k : String} {f g : PluralForm} (h : f.keyOf j = g.keyOf k) :
    j = k ∧ f = g := by
  have hlist := congrArg String.toList h
  rw [toList_keyOf, toList_keyOf] at hlist
  have hsuffix (form : PluralForm) : form.suffix.toList ≠ [] := by cases form <;> decide +kernel
  have hlast := congrArg List.getLast? hlist
  rw [List.getLast?_append_cons, List.getLast?_append_cons,
    List.getLast?_cons_of_ne_nil (hsuffix f), List.getLast?_cons_of_ne_nil (hsuffix g)] at hlast
  -- Behind the same suffix the keys are what is left.
  obtain rfl := getLast?_suffix_inj hlast
  exact ⟨String.toList_inj.mp (List.append_cancel_right hlist), rfl⟩

/-! ## One level -/

/-- The keys of a map: each stands there once, and none is that of a form of another. -/
structure HasClearKeys (ms : Members) : Prop where
  nodup : (Ordered.keys ms).Nodup
  ne_keyOf : ∀ j ∈ Ordered.keys ms, ∀ k ∈ Ordered.keys ms, ∀ form : PluralForm, j ≠ form.keyOf k

theorem mem_keys_entry {m : String × Tree} {j : String}
    (h : j ∈ Ordered.keys (Adapter.i18next.entry m)) :
    (j = m.1 ∧ ∀ s, m.2 = .text s → isPlural s.toList = false) ∨
      ∃ form, j = PluralForm.keyOf m.1 form := by
  obtain ⟨k, t⟩ := m
  cases t with
  | text s =>
    cases hs : isPlural s.toList with
    | true =>
      rw [Adapter.entry, (isPluralExpansion_expand k hs).forms, Ordered.keys, List.map_map] at h
      obtain ⟨form, -, rfl⟩ := List.mem_map.mp h
      exact .inr ⟨form, rfl⟩
    | false =>
      refine .inl ⟨?_, fun s' hs' ↦ by rwa [← Tree.text.inj hs']⟩
      simpa [Adapter.entry, Adapter.i18next, hs, Ordered.keys] using h
  | null | bool _ | int _ | float _ | list _ | map _ =>
    exact .inl ⟨List.mem_singleton.mp h, by simp⟩

theorem nodup_keys_entry (m : String × Tree) :
    (Ordered.keys (Adapter.i18next.entry m)).Nodup := by
  obtain ⟨k, t⟩ := m
  cases t with
  | text s =>
    cases hs : isPlural s.toList with
    | true =>
      rw [Adapter.entry, (isPluralExpansion_expand k hs).forms, Ordered.keys, List.map_map]
      exact (nodup_eraseDups _).map fun f g hfg ↦ (PluralForm.keyOf_inj hfg).2
    | false => simp [Adapter.entry, Adapter.i18next, hs, Ordered.keys]
  | null | bool _ | int _ | float _ | list _ | map _ => exact List.nodup_singleton _

/-- The members of different keys have different keys. -/
theorem HasClearKeys.nodup_keys_flatMap {ms : Members} (h : HasClearKeys ms) :
    (Ordered.keys (ms.flatMap Adapter.i18next.entry)).Nodup := by
  rw [Ordered.keys, List.map_flatMap]
  refine List.nodup_flatMap.mpr ⟨fun m _ ↦ nodup_keys_entry m, ?_⟩
  refine (List.pairwise_map.mp h.nodup).imp_of_mem fun {m n} hm hn hmn ↦ ?_
  have hmkey : m.1 ∈ Ordered.keys ms := List.mem_map_of_mem hm
  have hnkey : n.1 ∈ Ordered.keys ms := List.mem_map_of_mem hn
  intro j hj hj'
  rcases mem_keys_entry hj with ⟨rfl, -⟩ | ⟨form, rfl⟩
  · rcases mem_keys_entry hj' with ⟨heq, -⟩ | ⟨form, heq⟩
    · exact hmn heq
    · exact h.ne_keyOf _ hmkey _ hnkey form heq
  · rcases mem_keys_entry hj' with ⟨heq, -⟩ | ⟨form', heq⟩
    · exact h.ne_keyOf _ hnkey _ hmkey form heq.symm
    · exact hmn (PluralForm.keyOf_inj heq).1

theorem HasClearKeys.transform_eq {ms : Members} (h : HasClearKeys ms) :
    Adapter.i18next.transform ms = ms.flatMap Adapter.i18next.entry := by
  have hkeys : (Ordered.keys ([] ++ ms.flatMap Adapter.i18next.entry)).Nodup := h.nodup_keys_flatMap
  rw [Adapter.transform, Adapter.addMembers_eq_flatMap hkeys, List.nil_append]

/-- The key of a plural text is that of no member any more. -/
theorem HasClearKeys.notMem_keys_flatMap {ms : Members} (h : HasClearKeys ms) {k s : String}
    (hm : (k, .text s) ∈ ms) (hs : isPlural s.toList = true) :
    k ∉ Ordered.keys (ms.flatMap Adapter.i18next.entry) := by
  rw [Ordered.keys, List.map_flatMap, List.mem_flatMap]
  rintro ⟨n, hn, hk⟩
  rcases mem_keys_entry hk with ⟨rfl, hplain⟩ | ⟨form, heq⟩
  · have hsame := List.inj_on_of_nodup_map h.nodup hm hn rfl
    exact Bool.noConfusion ((hplain s (congrArg Prod.snd hsame.symm)).symm.trans hs)
  · exact h.ne_keyOf k (List.mem_map_of_mem hm) n.1 (List.mem_map_of_mem hn) form heq

/-! ## All levels -/

/-- The maps at and below a tree, by their members. -/
inductive HasLevel : Tree → Members → Prop
  | self (ms : Members) : HasLevel (.map ms) ms
  | member {ms ls : Members} {m : String × Tree} : m ∈ ms → HasLevel m.2 ls → HasLevel (.map ms) ls
  | item {ts : List Tree} {ls : Members} {t : Tree} : t ∈ ts → HasLevel t ls →
      HasLevel (.list ts) ls

/-- The members that replace one, when `R` relates the trees below it to those that replace them. -/
inductive EntryExpands (R : Tree → Tree → Prop) : String × Tree → Members → Prop
  | plural {k s : String} {es : Members} : isPlural s.toList = true → IsPluralExpansion k s es →
      EntryExpands R (k, .text s) es
  | plain {k s : String} : isPlural s.toList = false →
      EntryExpands R (k, .text s) [(k, .text (braced s.toList))]
  | other {k : String} {t u : Tree} : (∀ s, t ≠ .text s) → R t u → EntryExpands R (k, t) [(k, u)]

/-- The item that replaces one of a list: a plural text of one form becomes the text of that form,
and one of several forms keeps them all. -/
inductive ItemExpands (R : Tree → Tree → Prop) : Tree → Tree → Prop
  | single {s k : String} {t : Tree} : isPlural s.toList = true → IsPluralExpansion "" s [(k, t)] →
      ItemExpands R (.text s) t
  | several {s : String} {es : Members} : isPlural s.toList = true → IsPluralExpansion "" s es →
      1 < es.length → ItemExpands R (.text s) (.text (braced s.toList))
  | plain {s : String} : isPlural s.toList = false →
      ItemExpands R (.text s) (.text (braced s.toList))
  | other {t u : Tree} : (∀ s, t ≠ .text s) → R t u → ItemExpands R t u

/-- Each key stands in the replaced members once, and that of a plural text is given up. -/
structure IsLevelOf (ms out : Members) : Prop where
  nodup : (Ordered.keys out).Nodup
  notMem : ∀ k s, (k, .text s) ∈ ms → isPlural s.toList = true → k ∉ Ordered.keys out

/-- A tree and the one that replaces it: at each level the members of the entries are put together
in the order of the entries. -/
inductive Expands : Tree → Tree → Prop
  | map {ms : Members} {ess : List Members} : List.Forall₂ (EntryExpands Expands) ms ess →
      IsLevelOf ms ess.flatten → Expands (.map ms) (.map ess.flatten)
  | list {ts us : List Tree} : List.Forall₂ (ItemExpands Expands) ts us →
      Expands (.list ts) (.list us)
  | leaf {t : Tree} : (∀ ms, t ≠ .map ms) → (∀ ts, t ≠ .list ts) → Expands t t

/-- The levels of a tree have clear keys. -/
def HasClearLevels (t : Tree) : Prop := ∀ ms, HasLevel t ms → HasClearKeys ms

theorem hasClearLevels_map_iff {ms : Members} :
    HasClearLevels (.map ms) ↔ HasClearKeys ms ∧ ∀ m ∈ ms, HasClearLevels m.2 := by
  refine ⟨fun h ↦ ⟨h ms (.self ms), fun m hm ls hls ↦ h ls (.member hm hls)⟩, ?_⟩
  rintro ⟨hkeys, hmembers⟩ ls (_ | ⟨hm, hls⟩)
  · exact hkeys
  · exact hmembers _ hm ls hls

theorem hasClearLevels_list_iff {ts : List Tree} :
    HasClearLevels (.list ts) ↔ ∀ t ∈ ts, HasClearLevels t := by
  refine ⟨fun h t ht ls hls ↦ h ls (.item ht hls), ?_⟩
  rintro h ls (_ | _ | ⟨ht, hls⟩)
  exact h _ ht ls hls

theorem hasClearLevels_of_ne {t : Tree} (hmap : ∀ ms, t ≠ .map ms) (hlist : ∀ ts, t ≠ .list ts) :
    HasClearLevels t := by
  rintro ls (_ | _ | _)
  · exact absurd rfl (hmap _)
  · exact absurd rfl (hmap _)
  · exact absurd rfl (hlist _)

theorem itemExpands_item (R : Tree → Tree → Prop) (s : String) :
    ItemExpands R (.text s) (Adapter.i18next.item s) := by
  cases hs : isPlural s.toList with
  | true =>
    have hexpand := isPluralExpansion_expand "" hs
    rw [Adapter.item]
    split
    · rename_i k t heq
      exact .single hs (heq ▸ hexpand)
    · rename_i hseveral
      refine .several hs hexpand (Nat.lt_of_le_of_ne hexpand.nonempty fun hone ↦ ?_)
      obtain ⟨⟨k, t⟩, heq⟩ := List.length_eq_one_iff.mp hone.symm
      exact hseveral k t heq
  | false =>
    have hplain : Adapter.i18next.item s = .text (braced s.toList) := by
      simp [Adapter.item, Adapter.i18next, hs, braced]
    exact hplain ▸ .plain hs

mutual

theorem expands_adapt {t : Tree} (h : HasClearLevels t) :
    Expands t (Adapter.i18next.adapt t) := by
  match t with
  | .map ms =>
    obtain ⟨hclear, hmembers⟩ := hasClearLevels_map_iff.mp h
    have hadapt : Adapter.i18next.adapt (.map ms)
        = .map (ms.map Adapter.i18next.entry).flatten := by
      rw [Adapter.adapt, ← Adapter.transform, hclear.transform_eq, List.flatMap_def]
    rw [hadapt]
    refine .map (entries_expand hmembers) ?_
    rw [← List.flatMap_def]
    exact ⟨hclear.nodup_keys_flatMap, fun k s ↦ hclear.notMem_keys_flatMap⟩
  | .list ts =>
    rw [Adapter.adapt]
    exact .list (items_expand (hasClearLevels_list_iff.mp h))
  | .null | .bool _ | .int _ | .float _ | .text _ => exact .leaf (by simp) (by simp)

theorem entries_expand {ms : Members} (h : ∀ m ∈ ms, HasClearLevels m.2) :
    List.Forall₂ (EntryExpands Expands) ms (ms.map Adapter.i18next.entry) := by
  match ms with
  | [] => exact .nil
  | (k, t) :: ms =>
    obtain ⟨ht, hms⟩ := List.forall_mem_cons.mp h
    refine .cons ?_ (entries_expand hms)
    have hother := expands_adapt ht
    match t with
    | .text s =>
      cases hs : isPlural s.toList with
      | true => exact .plural hs (isPluralExpansion_expand k hs)
      | false =>
        have hentry : Adapter.i18next.entry (k, .text s) = [(k, .text (braced s.toList))] := by
          simp [Adapter.entry, Adapter.i18next, hs, braced]
        exact hentry ▸ .plain hs
    | .null | .bool _ | .int _ | .float _ | .list _ | .map _ => exact .other (by simp) hother

theorem items_expand {ts : List Tree} (h : ∀ t ∈ ts, HasClearLevels t) :
    List.Forall₂ (ItemExpands Expands) ts (Adapter.i18next.adaptItems ts) := by
  match ts with
  | [] => exact .nil
  | t :: ts =>
    obtain ⟨ht, hts⟩ := List.forall_mem_cons.mp h
    have hrest := items_expand hts
    have hother := expands_adapt ht
    match t with
    | .text s => exact .cons (itemExpands_item Expands s) hrest
    | .null | .bool _ | .int _ | .float _ | .list _ | .map _ =>
      exact .cons (.other (by simp) hother) hrest

end

/-- A plural text with markers, and below it one without and a list. -/
def pluralMembers : Members :=
  [("apples", .text "{0} None|{1} One|[2,*] :count|{7} Lucky"),
    ("nested", .map [("days", .text ":n day|:n days"), ("lines", .list [.text "{0} No :x",
      .map [("a", .text "x|y|z"), ("b", .null)]])]),
    ("n", .int 1)]

instance (ms : Members) : Decidable (HasClearKeys ms) :=
  decidable_of_iff ((Ordered.keys ms).Nodup ∧ ∀ j ∈ Ordered.keys ms, ∀ k ∈ Ordered.keys ms,
      ∀ form ∈ [PluralForm.zero, .one, .other], j ≠ form.keyOf k) <| by
    refine ⟨fun h ↦ ⟨h.1, fun j hj k hk form ↦ ?_⟩, fun h ↦ ⟨h.1, fun j hj k hk form _ ↦ ?_⟩⟩
    · exact h.2 j hj k hk form (by cases form <;> simp)
    · exact h.ne_keyOf j hj k hk form

theorem hasClearLevels_pluralMembers : HasClearLevels (.map pluralMembers) := by
  have htext (s : String) : HasClearLevels (.text s) := hasClearLevels_of_ne (by simp) (by simp)
  have hnull : HasClearLevels .null := hasClearLevels_of_ne (by simp) (by simp)
  have hint (n : Int) : HasClearLevels (.int n) := hasClearLevels_of_ne (by simp) (by simp)
  simp only [pluralMembers, hasClearLevels_map_iff, hasClearLevels_list_iff, List.forall_mem_cons,
    List.not_mem_nil, false_implies, implies_true, and_true, htext, hnull, hint, true_and]
  exact ⟨by decide +kernel, by decide +kernel, by decide +kernel⟩

end FrontendSync.Locale
