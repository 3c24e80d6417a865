import FrontendSync.Proofs.Locale.Bundle

/-!
# Merging

Entries are merged under the keys they are written with: each key has the value it was given last
and the place where it was given first.  Keys are shortened afterwards, in the order of these
places, so of several keys that are shortened to one the last in this order gives the value, which
need not be the one that was given last.
-/

namespace FrontendSync

open FrontendSync.Tree

namespace Locale

variable {j k q : String} {v t : Tree} {entries : Members}

/-- The last key, in the order of first mention, that is shortened to `k`. -/
def lastKey? (k : String) (qs : List String) : Option String :=
  (qs.eraseDups.filter (Php.Name.short · = k)).getLast?

/-- What one entry of the top level becomes on its own. -/
def Becomes (a : Adapter) (m e : String × Tree) : Prop := shaped a false [m] = [e]

theorem short_of_lastKey? {qs : List String} (h : lastKey? k qs = some q) :
    Php.Name.short q = k :=
  of_decide_eq_true (List.mem_filter.mp (List.mem_of_getLast? h)).2

theorem mem_of_lastKey? {qs : List String} (h : lastKey? k qs = some q) : q ∈ qs :=
  List.mem_eraseDups.mp (List.mem_filter.mp (List.mem_of_getLast? h)).1

theorem exists_lastKey? {qs : List String} (h : q ∈ qs) :
    ∃ last, lastKey? (Php.Name.short q) qs = some last := by
  have hmem : q ∈ qs.eraseDups.filter (Php.Name.short · = Php.Name.short q) :=
    List.mem_filter.mpr ⟨List.mem_eraseDups.mpr h, decide_eq_true rfl⟩
  exact ⟨_, List.getLast?_eq_some_getLast (List.ne_nil_of_mem hmem)⟩

theorem shortMembers_eq_map (ms : Members) :
    shortMembers ms = ms.map fun m ↦ (Php.Name.short m.1, shortKeys m.2) := by
  induction ms with
  | nil => rfl
  | cons m ms ih => rw [shortMembers, ih, List.map_cons]

section Adapter

variable {a : Adapter} (ha : a.IsSingular)

include ha

theorem becomes_iff {m e : String × Tree} : Becomes a m e ↔
    e = (Php.Name.short m.1, a.adaptAt (Php.Name.short m.1) (shortKeys m.2)) := by
  have hnormal : Tree.normalize [m] = [(Php.Name.short m.1, shortKeys m.2)] := rfl
  have hkeys : (Ordered.keys (Tree.normalize [m])).Nodup := List.pairwise_singleton _ _
  rw [Becomes, shaped, if_neg Bool.false_ne_true, Adapter.transform_eq ha hkeys, hnormal,
    List.map_singleton, List.singleton_inj, eq_comm]

/-- The value of a key is that of the last of the keys that are shortened to it. -/
theorem mem_shaped_ofList_iff : (k, v) ∈ shaped a false (Ordered.ofList entries) ↔
    ∃ q t, lastKey? k (Ordered.keys entries) = some q ∧
      Ordered.get? q entries.reverse = some t ∧ Becomes a (q, t) (k, v) := by
  have hmerged := Ordered.nodup_keys_ofList entries
  -- the members that are shortened to `k` are looked for among all, before they are shortened
  have hlast (t' : Tree) :
      (k, t') ∈ Tree.normalize (Ordered.ofList entries) ↔ ∃ q t,
        lastKey? k (Ordered.keys entries) = some q ∧ Ordered.get? q entries.reverse = some t ∧
          t' = shortKeys t := by
    have hnormal := Ordered.nodup_keys_ofList (shortMembers (Ordered.ofList entries))
    have hget : (k, t') ∈ Tree.normalize (Ordered.ofList entries) ↔
        Ordered.get? k (Tree.normalize (Ordered.ofList entries)) = some t' :=
      ⟨Ordered.get?_eq_some_of_mem hnormal, Ordered.mem_of_get?_eq_some⟩
    rw [hget, Tree.normalize, Ordered.get?_ofList, Ordered.get?_reverse, shortMembers_eq_map,
      List.filter_map, List.getLast?_map, Option.map_map, Option.map_eq_some_iff]
    constructor
    · rintro ⟨⟨q, t⟩, hq, rfl⟩
      have hq := (Ordered.getLast?_filter_eq_some_iff_of_nodup
        (p := fun q ↦ decide (Php.Name.short q = k)) hmerged).mp hq
      rw [Ordered.keys_ofList, Ordered.get?_ofList] at hq
      exact ⟨q, t, hq.1, hq.2, rfl⟩
    · rintro ⟨q, t, hq, ht, rfl⟩
      rw [← Ordered.get?_ofList] at ht
      rw [lastKey?, ← Ordered.keys_ofList] at hq
      exact ⟨(q, t), (Ordered.getLast?_filter_eq_some_iff_of_nodup
        (p := fun q ↦ decide (Php.Name.short q = k)) hmerged).mpr ⟨hq, ht⟩, rfl⟩
  have hnormal : (Ordered.keys (Tree.normalize (Ordered.ofList entries))).Nodup :=
    Ordered.nodup_keys_ofList _
  rw [shaped, if_neg Bool.false_ne_true, Adapter.transform_eq ha hnormal, List.mem_map]
  constructor
  · rintro ⟨⟨j, t'⟩, hmem, heq⟩
    obtain ⟨rfl, rfl⟩ := Prod.mk.inj heq
    obtain ⟨q, t, hq, ht, rfl⟩ := (hlast t').mp hmem
    refine ⟨q, t, hq, ht, (becomes_iff ha).mpr ?_⟩
    rw [short_of_lastKey? hq]
  · rintro ⟨q, t, hq, ht, hbecomes⟩
    refine ⟨(k, shortKeys t), (hlast _).mpr ⟨q, t, hq, ht, rfl⟩, ?_⟩
    rw [(becomes_iff ha).mp hbecomes, short_of_lastKey? hq]

/-- The keys of the data are the short keys of the entries. -/
theorem mem_keys_shaped_ofList : k ∈ Ordered.keys (shaped a false (Ordered.ofList entries)) ↔
    ∃ q ∈ Ordered.keys entries, Php.Name.short q = k := by
  constructor
  · intro hk
    obtain ⟨⟨k, v⟩, hv, rfl⟩ := List.mem_map.mp hk
    obtain ⟨q, t, hq, -, -⟩ := (mem_shaped_ofList_iff ha).mp hv
    exact ⟨q, mem_of_lastKey? hq, short_of_lastKey? hq⟩
  · rintro ⟨q, hq, rfl⟩
    obtain ⟨last, hlast⟩ := exists_lastKey? hq
    have hmem : last ∈ Ordered.keys entries.reverse := by
      rw [Ordered.keys, List.map_reverse, List.mem_reverse]
      exact mem_of_lastKey? hlast
    obtain ⟨t, ht⟩ := Option.ne_none_iff_exists'.mp fun hnone ↦
      Ordered.get?_eq_none_iff.mp hnone hmem
    have hbecomes := (becomes_iff ha (m := (last, t))).mpr rfl
    rw [short_of_lastKey? hlast] at hbecomes
    exact List.mem_map_of_mem (f := Prod.fst)
      ((mem_shaped_ofList_iff ha).mpr ⟨last, t, hlast, ht, hbecomes⟩)

/-- Only the entry of a marked key has the mark. -/
theorem eq_of_becomes_mark (h : Becomes a (q, .bool (q = k)) (j, .bool true)) : q = k := by
  have hvalue := (Prod.mk.inj ((becomes_iff ha).mp h)).2
  exact of_decide_eq_true (Tree.bool.inj hvalue).symm

end Adapter

/-! ## Marks -/

/-- The same keys with values that tell which of them is `q`. -/
def marked (q : String) (ms : Members) : Members := ms.map fun m ↦ (m.1, .bool (m.1 = q))

theorem keys_marked (q : String) (ms : Members) :
    Ordered.keys (marked q ms) = Ordered.keys ms := by
  rw [marked, Ordered.keys, List.map_map]
  rfl

theorem snd_of_mem_marked {ms : Members} {m : String × Tree} (h : m ∈ marked q ms) :
    m.2 = .bool (m.1 = q) := by
  obtain ⟨e, -, rfl⟩ := List.mem_map.mp h
  rfl

theorem getLast?_filter_marked {p : String → Bool} {ms : Members}
    (h : ((Ordered.keys ms).filter p).getLast? = some q) :
    ((marked q ms).filter (p ·.1)).getLast? = some (q, .bool true) := by
  rw [Ordered.keys, List.filter_map, List.getLast?_map] at h
  obtain ⟨m, hm, rfl⟩ := Option.map_eq_some_iff.mp h
  rw [marked, List.filter_map, List.getLast?_map]
  refine (congrArg (Option.map _) hm).trans ?_
  rw [Option.map_some, decide_eq_true rfl]

/-! ## Roots -/

/-- Several lists of members are merged as one. -/
theorem foldl_insertAll (trees : List Members) :
    trees.foldl Ordered.insertAll [] = Ordered.ofList trees.flatten := by
  rw [Ordered.ofList, Ordered.insertAll, List.foldl_flatten]
  rfl

/-- Lists of members that are merged one by one may be merged before. -/
theorem foldl_insertAll_map_ofList (trees : List Members) :
    (trees.map Ordered.ofList).foldl Ordered.insertAll [] = Ordered.ofList trees.flatten := by
  have hmerge (out : Members) (hout : (Ordered.keys out).Nodup) :
      (trees.map Ordered.ofList).foldl Ordered.insertAll out
        = trees.foldl Ordered.insertAll out := by
    induction trees generalizing out with
    | nil => rfl
    | cons ms trees ih =>
      rw [List.map_cons, List.foldl_cons, List.foldl_cons, Ordered.insertAll_ofList hout]
      exact ih _ (Ordered.nodup_keys_insertAll hout)
  rw [hmerge [] List.nodup_nil, foldl_insertAll]

theorem keys_flatten (trees : List Members) :
    Ordered.keys trees.flatten = (trees.map Ordered.keys).flatten := List.map_flatten

/-- Where a root has the locale, the trees of all roots are merged. -/
theorem ofRoots_eq_ok {d : Disk} {lookup : Lookup} {roots : List Path} {locale : String}
    {found : List (Option Members)} (h : roots.mapM (ofRoot d lookup locale) = .ok found)
    (hfound : found.filterMap id ≠ []) :
    ofRoots d lookup roots locale
      = .ok ((found.filterMap id).foldl Ordered.insertAll []) := by
  obtain ⟨ms, trees, hall⟩ := List.exists_cons_of_ne_nil hfound
  rw [ofRoots, h, hall]
  simp only [bind, Except.bind, hall]
  rfl

end Locale

end FrontendSync
