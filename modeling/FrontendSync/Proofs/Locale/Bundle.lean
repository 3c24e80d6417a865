import FrontendSync.Locale.Bundle
import FrontendSync.Proofs.Lists
import FrontendSync.Proofs.Locale.Leaves

/-!
# Leaves of a bundle

An adapter that replaces each text by one text keeps every leaf in its place.  So the data of a
locale has as many leaves as its roots together, unless two keys become one when they are
shortened or joined.
-/

namespace FrontendSync

open FrontendSync.Tree

namespace Tree

mutual

/-- Short keys of one map are distinct, since later members took the place of earlier ones. -/
theorem keepsApart_shortKeys (t : Tree) : KeepsApart id (shortKeys t) := by
  match t with
  | map ms =>
    refine ⟨?_, membersKeepApart_iff.mpr fun m hm ↦ ?_⟩
    · rw [List.map_id]
      exact Ordered.nodup_keys_insertAll List.nodup_nil
    · have hm := (Ordered.mem_or_mem_of_mem_insertAll hm).resolve_left List.not_mem_nil
      exact membersKeepApart_iff.mp (membersKeepApart_shortMembers ms) m hm
  | list ts => exact itemsKeepApart_shortItems ts
  | null | bool _ | int _ | float _ | text _ => trivial

theorem membersKeepApart_shortMembers (ms : Members) :
    MembersKeepApart id (shortMembers ms) := by
  match ms with
  | [] => trivial
  | (k, t) :: ms => exact ⟨keepsApart_shortKeys t, membersKeepApart_shortMembers ms⟩

theorem itemsKeepApart_shortItems (ts : List Tree) : ItemsKeepApart id (shortItems ts) := by
  match ts with
  | [] => trivial
  | t :: ts => exact ⟨keepsApart_shortKeys t, itemsKeepApart_shortItems ts⟩

end

end Tree

namespace Locale.Adapter

/-- The members that replace one. -/
def entry (a : Adapter) : String × Tree → Members
  | (k, .text s) => a.expand k s
  | (k, t) => [(k, a.adapt t)]

theorem entry_of_ne {a : Adapter} {k : String} {t : Tree} (h : ∀ s, t ≠ .text s) :
    a.entry (k, t) = [(k, a.adapt t)] := by
  cases t with
  | text s => exact absurd rfl (h s)
  | null | bool _ | int _ | float _ | list _ | map _ => rfl

theorem addMembers_cons_of_ne {a : Adapter} {k : String} {t : Tree} {ms : Members}
    (h : ∀ s, t ≠ .text s) (out : Members) :
    a.addMembers out ((k, t) :: ms) = a.addMembers (Ordered.insert k (a.adapt t) out) ms := by
  cases t with
  | text s => exact absurd rfl (h s)
  | null | bool _ | int _ | float _ | list _ | map _ => rw [addMembers]; simp

theorem addNew_eq {out ms : Members} (h : (Ordered.keys (out ++ ms)).Nodup) :
    addNew out ms = out ++ ms := by
  induction ms generalizing out with
  | nil => exact (List.append_nil _).symm
  | cons m ms ih =>
    rw [List.append_cons] at h
    have hm : m.1 ∉ Ordered.keys out := by
      rw [Ordered.keys, List.map_append, List.map_append] at h
      have hout := (List.nodup_append.mp (List.nodup_append.mp h).1).2.2
      exact fun hm ↦ hout m.1 hm m.1 List.mem_cons_self rfl
    have hfree : Ordered.contains m.1 out = false := by
      rw [Ordered.contains, Ordered.get?_eq_none_iff.mpr hm]
      rfl
    rw [addNew, List.foldl_cons, hfree, if_neg Bool.false_ne_true, Ordered.insert_of_notMem hm]
    have hrest := ih h
    rwa [← List.append_cons] at hrest

/-- Members that are replaced by members with keys of their own are replaced one by one. -/
theorem addMembers_eq_flatMap {a : Adapter} {ms out : Members}
    (h : (Ordered.keys (out ++ ms.flatMap a.entry)).Nodup) :
    a.addMembers out ms = out ++ ms.flatMap a.entry := by
  induction ms generalizing out with
  | nil => exact (List.append_nil _).symm
  | cons m ms ih =>
    obtain ⟨k, t⟩ := m
    -- What replaces the first member has keys that are new, so it is put behind the others whole.
    rw [List.flatMap_cons, ← List.append_assoc] at h
    have hentry : (Ordered.keys (out ++ a.entry (k, t))).Nodup := by
      rw [Ordered.keys, List.map_append] at h
      exact (List.nodup_append.mp h).1
    have hadd : a.addMembers out ((k, t) :: ms) = a.addMembers (out ++ a.entry (k, t)) ms := by
      cases t with
      | text s => rw [addMembers, ← addNew_eq hentry, entry]
      | null | bool _ | int _ | float _ | list _ | map _ =>
        have hk : k ∉ Ordered.keys out := by
          rw [Ordered.keys, List.map_append] at hentry
          exact fun hk ↦ (List.nodup_append.mp hentry).2.2 k hk k List.mem_cons_self rfl
        rw [addMembers_cons_of_ne (by simp), Ordered.insert_of_notMem hk, entry_of_ne (by simp)]
    rw [hadd, ih h, List.flatMap_cons, List.append_assoc]

/-- What an adapter makes of an item of a list. -/
def inList (a : Adapter) : Tree → Tree
  | .text s => a.item s
  | t => a.adapt t

theorem inList_of_ne {a : Adapter} {t : Tree} (h : ∀ s, t ≠ .text s) : a.inList t = a.adapt t := by
  cases t with
  | text s => exact absurd rfl (h s)
  | null | bool _ | int _ | float _ | list _ | map _ => rfl

theorem adaptItems_eq_map (a : Adapter) (ts : List Tree) :
    a.adaptItems ts = ts.map a.inList := by
  induction ts with
  | nil => rfl
  | cons t ts ih =>
    rw [List.map_cons, ← ih]
    cases t with
    | text s => rfl
    | null | bool _ | int _ | float _ | list _ | map _ => rfl

/-- Each text becomes one text under the same key. -/
def IsSingular (a : Adapter) : Prop := ∀ k s, ∃ s', a.expand k s = [(k, .text s')]

theorem isSingular_of_mem {a : Adapter} (h : a ∈ [vueI18n, passthrough, source]) :
    a.IsSingular := by
  rcases List.mem_cons.mp h with rfl | h
  · exact fun k s ↦ ⟨_, rfl⟩
  rcases List.mem_cons.mp h with rfl | h
  · exact fun k s ↦ ⟨_, rfl⟩
  obtain rfl := List.mem_singleton.mp h
  exact fun k s ↦ ⟨_, rfl⟩

/-- What an adapter makes of a tree: a text of a text. -/
def Adapts (a : Adapter) (t t' : Tree) : Prop :=
  t' = a.adapt t ∨ ∃ s s', t = .text s ∧ t' = .text s'

/-- Members with the same keys and with leaves in the same places. -/
def SameKeys (ms ms' : Members) : Prop :=
  Ordered.keys ms' = Ordered.keys ms ∧
    ∀ path, Ordered.keys (memberLeaves path ms') = Ordered.keys (memberLeaves path ms)

/-- What an adapter makes of the tree of a key. -/
def adaptAt (a : Adapter) (k : String) : Tree → Tree
  | .text s => ((a.expand k s).head?.map Prod.snd).getD (.text s)
  | t => a.adapt t

variable {a : Adapter} (ha : a.IsSingular)

include ha

theorem adapts_adaptAt (k : String) (t : Tree) : Adapts a t (a.adaptAt k t) := by
  cases t with
  | text s =>
    obtain ⟨s', hs'⟩ := ha k s
    refine .inr ⟨s, s', rfl, ?_⟩
    rw [adaptAt, hs']
    rfl
  | null | bool _ | int _ | float _ | list _ | map _ => exact .inl rfl

theorem entry_eq (m : String × Tree) : a.entry m = [(m.1, a.adaptAt m.1 m.2)] := by
  obtain ⟨k, t⟩ := m
  cases t with
  | text s =>
    obtain ⟨s', hs'⟩ := ha k s
    rw [entry, adaptAt, hs']
    rfl
  | null | bool _ | int _ | float _ | list _ | map _ => rfl

/-- Members with keys of their own are adapted one by one. -/
theorem transform_eq {ms : Members} (h : (Ordered.keys ms).Nodup) :
    a.transform ms = ms.map fun m ↦ (m.1, a.adaptAt m.1 m.2) := by
  have hentries : ms.flatMap a.entry = ms.map fun m ↦ (m.1, a.adaptAt m.1 m.2) := by
    rw [List.map_eq_flatMap]
    exact List.flatMap_congr fun m _ ↦ entry_eq ha m
  have hkeys : (Ordered.keys ([] ++ ms.flatMap a.entry)).Nodup := by
    rw [List.nil_append, hentries, Ordered.keys, List.map_map]
    exact h
  rw [transform, addMembers_eq_flatMap hkeys, hentries, List.nil_append]

theorem exists_adaptItems_cons (t : Tree) (ts : List Tree) :
    ∃ t', Adapts a t t' ∧ a.adaptItems (t :: ts) = t' :: a.adaptItems ts := by
  cases t with
  | text s =>
    obtain ⟨s', hs'⟩ := ha "" s
    refine ⟨.text s', .inr ⟨s, s', rfl, rfl⟩, ?_⟩
    rw [adaptItems, item, hs']
  | null | bool _ | int _ | float _ | list _ | map _ => exact ⟨a.adapt _, .inl rfl, rfl⟩

mutual

theorem keys_leaves_adapt {t : Tree} (h : KeepsApart id t) {t' : Tree} (ht' : Adapts a t t')
    (path : Option String) : Ordered.keys (leaves path t') = Ordered.keys (leaves path t) := by
  rcases ht' with rfl | ⟨s, s', rfl, rfl⟩
  · match t with
    | .map [] | .list [] | .null | .bool _ | .int _ | .float _ | .text _ => rfl
    | .map (m :: ms) =>
      obtain ⟨hkeys, hms⟩ := h
      rw [List.map_id] at hkeys
      have hsame := sameKeys_map hms
      rw [adapt, ← transform, transform_eq ha hkeys]
      exact hsame.2 path
    | .list (t :: ts) =>
      obtain ⟨t', -, hcons⟩ := exists_adaptItems_cons ha t ts
      have hitems := keys_itemLeaves_adaptItems h path 0
      rw [hcons] at hitems
      rwa [adapt, hcons]
  · rfl

theorem sameKeys_map {ms : Members} (h : MembersKeepApart id ms) :
    SameKeys ms (ms.map fun m ↦ (m.1, a.adaptAt m.1 m.2)) := by
  match ms with
  | [] => exact ⟨rfl, fun _ ↦ rfl⟩
  | (k, t) :: ms =>
    obtain ⟨hkeys, hleaves⟩ := sameKeys_map h.2
    refine ⟨congrArg (k :: ·) hkeys, fun path ↦ ?_⟩
    have ht := keys_leaves_adapt h.1 (adapts_adaptAt ha k t) (some (joinKey path k))
    have hrest := hleaves path
    simp only [Ordered.keys, memberLeaves, List.map_cons, List.map_append] at ht hrest ⊢
    rw [ht, hrest]

theorem keys_itemLeaves_adaptItems {ts : List Tree} (h : ItemsKeepApart id ts)
    (path : Option String) (n : Nat) :
    Ordered.keys (itemLeaves path n (a.adaptItems ts)) = Ordered.keys (itemLeaves path n ts) := by
  match ts with
  | [] => rfl
  | t :: ts =>
    obtain ⟨t', ht', hcons⟩ := exists_adaptItems_cons ha t ts
    have ht := keys_leaves_adapt h.1 ht' (some (joinKey path (Decimal.ofNat n)))
    have hrest := keys_itemLeaves_adaptItems h.2 path (n + 1)
    rw [hcons, itemLeaves, itemLeaves]
    simp only [Ordered.keys, List.map_append] at ht hrest ⊢
    rw [ht, hrest]

end

theorem sameKeys_transform {ms : Members} (h : KeepsApart id (.map ms)) :
    SameKeys ms (a.transform ms) := by
  obtain ⟨hkeys, hms⟩ := h
  rw [List.map_id] at hkeys
  rw [transform_eq ha hkeys]
  exact sameKeys_map ha hms

end Locale.Adapter

namespace Locale

/-- Keys that can be shortened in every map, and then joined if the data is flat, without two of
them becoming one. -/
structure KeepsEntries (flat : Bool) (ms : Members) : Prop where
  short : KeepsApart Php.Name.short (.map ms)
  joined : flat = true → (Ordered.keys (memberLeaves none (Tree.normalize ms))).Nodup

theorem memberLeafCount_normalize (ms : Members) :
    memberLeafCount (Tree.normalize ms) ≤ memberLeafCount ms ∧
      (memberLeafCount (Tree.normalize ms) = memberLeafCount ms
        ↔ KeepsApart Php.Name.short (.map ms)) := by
  obtain ⟨hle, hiff⟩ := memberLeafCount_ofList (shortMembers ms)
  obtain ⟨hle', hiff'⟩ := memberLeafCount_shortMembers ms
  rw [KeepsApart, ← keys_shortMembers, ← hiff, ← hiff', Tree.normalize]
  omega

theorem normalize_eq_nil_iff {ms : Members} : Tree.normalize ms = [] ↔ ms = [] := by
  rw [Tree.normalize, Ordered.ofList, Ordered.insertAll_eq_nil_iff]
  cases ms <;> simp [shortMembers]

theorem memberLeafCount_flatten {ms : Members} (h : ms ≠ []) :
    memberLeafCount (Tree.map ms).flatten ≤ memberLeafCount ms ∧
      (memberLeafCount (Tree.map ms).flatten = memberLeafCount ms
        ↔ (Ordered.keys (memberLeaves none ms)).Nodup) := by
  match ms, h with
  | m :: ms, _ =>
    have hleaves := memberLeafCount_ofList (memberLeaves none (m :: ms))
    rwa [memberLeafCount_memberLeaves] at hleaves

/-- Members with leaves in the same places have as many. -/
theorem Adapter.SameKeys.memberLeafCount_eq {ms ms' : Members} (h : Adapter.SameKeys ms ms') :
    memberLeafCount ms' = memberLeafCount ms := by
  have hlength := congrArg List.length (h.2 none)
  simpa [Ordered.keys, length_memberLeaves] using hlength

theorem memberLeafCount_shaped_iff {a : Adapter} (ha : a.IsSingular) {flat : Bool} {ms : Members}
    (h : ms = [] → flat = false) :
    memberLeafCount (shaped a flat ms) = memberLeafCount ms ↔ KeepsEntries flat ms := by
  have hsame : Adapter.SameKeys (Tree.normalize ms) (a.transform (Tree.normalize ms)) :=
    Adapter.sameKeys_transform ha (keepsApart_shortKeys (.map ms))
  obtain ⟨hle, hshort⟩ := memberLeafCount_normalize ms
  have hadapted := hsame.memberLeafCount_eq
  rw [shaped]
  cases flat with
  | false =>
    rw [if_neg Bool.false_ne_true, hadapted, hshort]
    exact ⟨fun hs ↦ ⟨hs, fun hflat ↦ Bool.noConfusion hflat⟩, KeepsEntries.short⟩
  | true =>
    have hne : a.transform (Tree.normalize ms) ≠ [] := by
      intro hnil
      have hkeys : Ordered.keys (Tree.normalize ms) = [] := by rw [← hsame.1, hnil]; rfl
      have hms := normalize_eq_nil_iff.mp (List.map_eq_nil_iff.mp hkeys)
      exact Bool.noConfusion (h hms)
    obtain ⟨hle', hjoined⟩ := memberLeafCount_flatten hne
    rw [hsame.2] at hjoined
    rw [if_pos rfl]
    constructor
    · intro heq
      exact ⟨hshort.mp (by omega), fun _ ↦ hjoined.mp (by omega)⟩
    · intro hkeeps
      rw [hjoined.mpr (hkeeps.joined rfl), hadapted, hshort.mpr hkeeps.short]

end Locale

namespace Bundle

open FrontendSync.Locale Adapter

def enTarget : Target := ⟨⟨"locales"⟩, "\x7blocale\x7d.\x7bext\x7d", .ts⟩

/-- The numbers of leaves of a locale in its root and in its data. -/
def leafCounts (d : Disk) (a : Adapter) (flat : Bool) : Option (Nat × Nat) :=
  (ofRoots d (fun _ _ ↦ none) [⟨"lang"⟩] "en").toOption.bind fun ms ↦
    (load d (fun _ _ ↦ none) [⟨"lang"⟩] a flat enTarget "en").toOption.map fun b ↦
      (memberLeafCount ms, memberLeafCount b.data)

theorem exists_of_leafCounts {d : Disk} {a : Adapter} {flat : Bool} {m n : Nat}
    (h : leafCounts d a flat = some (m, n)) :
    ∃ ms b, ofRoots d (fun _ _ ↦ none) [⟨"lang"⟩] "en" = .ok ms ∧
      load d (fun _ _ ↦ none) [⟨"lang"⟩] a flat enTarget "en" = .ok b ∧
        memberLeafCount ms = m ∧ memberLeafCount b.data = n := by
  obtain ⟨ms, hms, h⟩ := Option.bind_eq_some_iff.mp h
  obtain ⟨b, hb, h⟩ := Option.map_eq_some_iff.mp h
  obtain ⟨hm, hn⟩ := Prod.mk.inj h
  exact ⟨ms, b, toOption_eq_some_iff.mp hms, toOption_eq_some_iff.mp hb, hm, hn⟩

/-- A locale with a qualified key, a key with a dot and an empty key. -/
def oddDisk : Disk :=
  ⟨.dir [("lang", .dir [
    ("en", .dir [("enums.php",
      .file "<?php return ['App\\Enums\\Status' => ['on' => ':n|off']];".toUTF8)]),
    ("en.json", .file "\x7b\"\": [], \"a.b\": null\x7d".toUTF8)])]⟩

/-- A locale that has only a JSON file. -/
def jsonDisk (text : String) : Disk := ⟨.dir [("lang", .dir [("en.json", .file text.toUTF8)])]⟩

/-- Under the only root there is, the data of a locale has other leaves than its file. -/
def Miscounts (text : String) (flat : Bool) : Prop :=
  ∃ ms b, ofRoots (jsonDisk text) (fun _ _ ↦ none) [⟨"lang"⟩] "en" = .ok ms ∧
    load (jsonDisk text) (fun _ _ ↦ none) [⟨"lang"⟩] source flat enTarget "en" = .ok b ∧
      memberLeafCount b.data ≠ memberLeafCount ms

theorem miscounts_of_leafCounts {text : String} {flat : Bool} {m n : Nat}
    (h : leafCounts (jsonDisk text) source flat = some (m, n)) (hne : n ≠ m) :
    Miscounts text flat := by
  obtain ⟨ms, b, hms, hb, rfl, rfl⟩ := exists_of_leafCounts h
  exact ⟨ms, b, hms, hb, hne⟩

end Bundle

end FrontendSync
