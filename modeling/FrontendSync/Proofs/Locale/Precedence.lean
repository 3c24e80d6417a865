import FrontendSync.Proofs.Locale.Merging

/-!
# Precedence of roots

A later root is meant to win for every key of the data.  It does where, of the keys that are
shortened to one, the last in the order of first mention is a key of the last root that has any of
them.  Whether this is so depends on the keys only, and where it is not some values tell.
-/

namespace FrontendSync

open FrontendSync.Tree

namespace Locale

/-- Lists of keys, root by root, for which the last of the keys that are shortened to `k` is one
of the last root that has such a key. -/
def KeepsPrecedence (keyss : List (List String)) : Prop :=
  ∀ k, ∀ q ∈ lastKey? k keyss.flatten,
    ∀ own ∈ (keyss.filter (·.any (Php.Name.short · = k))).getLast?, q ∈ own

/-- The last of the trees with a key that is shortened to `k`. -/
def lastOwner? (k : String) (trees : List Members) : Option Members :=
  (trees.filter (·.any (Php.Name.short ·.1 = k))).getLast?

/-- Every entry of the data is what a member of the last tree with a key for it becomes. -/
def LaterRootsWin (a : Adapter) (trees : List Members) (data : Members) : Prop :=
  ∀ k v, (k, v) ∈ data → ∃ own, lastOwner? k trees = some own ∧ ∃ m ∈ own, Becomes a m (k, v)

/-- Keys that stay apart when they are shortened. -/
theorem keepsPrecedence_of_injOn {keyss : List (List String)}
    (h : ∀ q ∈ keyss.flatten, ∀ q' ∈ keyss.flatten,
      Php.Name.short q = Php.Name.short q' → q = q') : KeepsPrecedence keyss := by
  intro k q hq own hown
  obtain ⟨hmem, hany⟩ := List.mem_filter.mp (List.mem_of_getLast? hown)
  obtain ⟨q', hq', hshort⟩ := List.any_eq_true.mp hany
  have hsame : q = q' := by
    apply h q (mem_of_lastKey? hq) q' (List.mem_flatten_of_mem hmem hq')
    rw [short_of_lastKey? hq, of_decide_eq_true hshort]
  rwa [hsame]

/-- It is enough to look at the keys there are. -/
theorem keepsPrecedence_iff {keyss : List (List String)} : KeepsPrecedence keyss ↔
    ∀ k ∈ keyss.flatten.map Php.Name.short, ∀ q ∈ lastKey? k keyss.flatten,
      ∀ own ∈ (keyss.filter (·.any (Php.Name.short · = k))).getLast?, q ∈ own := by
  constructor
  · intro h k _
    exact h k
  · intro h k q hq
    apply h k _ q hq
    rw [← short_of_lastKey? hq]
    exact List.mem_map_of_mem (mem_of_lastKey? hq)

instance (keyss : List (List String)) : Decidable (KeepsPrecedence keyss) :=
  decidable_of_iff _ keepsPrecedence_iff.symm

section Trees

variable {k q : String} {t : Tree} {trees : List Members} {own : Members}

theorem getLast?_filter_keys (k : String) (trees : List Members) :
    ((trees.map Ordered.keys).filter (·.any (Php.Name.short · = k))).getLast?
      = (lastOwner? k trees).map Ordered.keys := by
  have hany : (fun ks : List String ↦ ks.any (Php.Name.short · = k)) ∘ Ordered.keys
      = fun ms : Members ↦ ms.any (Php.Name.short ·.1 = k) := by
    funext ms
    exact List.any_map
  rw [List.filter_map, hany, List.getLast?_map, lastOwner?]

theorem exists_lastOwner? (h : q ∈ Ordered.keys trees.flatten) :
    ∃ own, lastOwner? (Php.Name.short q) trees = some own := by
  obtain ⟨m, hm, rfl⟩ := List.mem_map.mp h
  obtain ⟨ms, hms, hm⟩ := List.mem_flatten.mp hm
  have hmem : ms ∈ trees.filter (·.any (Php.Name.short ·.1 = Php.Name.short m.1)) :=
    List.mem_filter.mpr ⟨hms, List.any_eq_true.mpr ⟨m, hm, decide_eq_true rfl⟩⟩
  exact ⟨_, List.getLast?_eq_some_getLast (List.ne_nil_of_mem hmem)⟩

/-- The value that the last tree with a key gives it is the last one it is given. -/
theorem mem_of_get?_of_lastOwner? (hown : lastOwner? (Php.Name.short q) trees = some own)
    (hq : q ∈ Ordered.keys own) (h : Ordered.get? q trees.flatten.reverse = some t) :
    (q, t) ∈ own := by
  obtain ⟨-, before, after, rfl, hafter⟩ := getLast?_filter_eq_some_iff.mp hown
  have hlater : Ordered.get? q after.flatten.reverse = none := by
    rw [Ordered.get?_eq_none_iff]
    intro hmem
    obtain ⟨m, hm, rfl⟩ := List.mem_map.mp hmem
    obtain ⟨ms, hms, hm⟩ := List.mem_flatten.mp (List.mem_reverse.mp hm)
    have hnone := List.any_eq_false.mp (hafter ms hms) m hm
    exact hnone (decide_eq_true rfl)
  have hhere : Ordered.get? q own.reverse ≠ none := by
    rw [Ne, Ordered.get?_eq_none_iff, not_not, Ordered.keys, List.map_reverse]
    exact List.mem_reverse.mpr hq
  obtain ⟨t', ht'⟩ := Option.ne_none_iff_exists'.mp hhere
  rw [List.flatten_append, List.flatten_cons, List.reverse_append, List.reverse_append,
    Ordered.get?_append, Ordered.get?_append, hlater, ht'] at h
  obtain rfl := Option.some.inj h
  exact List.mem_reverse.mp (Ordered.mem_of_get?_eq_some ht')

variable {a : Adapter} (ha : a.IsSingular)

include ha

theorem laterRootsWin_foldl (h : KeepsPrecedence (trees.map Ordered.keys)) :
    LaterRootsWin a trees (shaped a false (trees.foldl Ordered.insertAll [])) := by
  intro k v hv
  rw [foldl_insertAll] at hv
  obtain ⟨q, t, hq, ht, hbecomes⟩ := (mem_shaped_ofList_iff ha).mp hv
  obtain rfl := short_of_lastKey? hq
  obtain ⟨own, hown⟩ := exists_lastOwner? (mem_of_lastKey? hq)
  have hkeys : q ∈ Ordered.keys own := by
    apply h (Php.Name.short q) q
    · rwa [keys_flatten] at hq
    · rw [getLast?_filter_keys, hown]
      rfl
  exact ⟨own, hown, (q, t), mem_of_get?_of_lastOwner? hown hkeys ht, hbecomes⟩

omit ha in
theorem lastOwner?_marked (k q : String) (trees : List Members) :
    lastOwner? k (trees.map (marked q)) = (lastOwner? k trees).map (marked q) := by
  have hany : (fun ms : Members ↦ ms.any (Php.Name.short ·.1 = k)) ∘ marked q
      = fun ms ↦ ms.any (Php.Name.short ·.1 = k) := by
    funext ms
    exact List.any_map
  rw [lastOwner?, List.filter_map, hany, List.getLast?_map, lastOwner?]

/-- Where the keys do not keep the precedence, some values under them tell. -/
theorem exists_not_laterRootsWin (h : ¬KeepsPrecedence (trees.map Ordered.keys)) :
    ∃ trees' : List Members, trees'.map Ordered.keys = trees.map Ordered.keys ∧
      ¬LaterRootsWin a trees' (shaped a false (trees'.foldl Ordered.insertAll [])) := by
  simp only [KeepsPrecedence, not_forall] at h
  obtain ⟨k, q, hq, keys, hkeys, hnot⟩ := h
  rw [getLast?_filter_keys] at hkeys
  obtain ⟨own, hown, rfl⟩ := Option.map_eq_some_iff.mp hkeys
  have hsame : (trees.map (marked q)).map Ordered.keys = trees.map Ordered.keys := by
    rw [List.map_map]
    exact List.map_congr_left fun ms _ ↦ keys_marked q ms
  refine ⟨trees.map (marked q), hsame, fun hwin ↦ ?_⟩
  rw [← hsame, ← keys_flatten] at hq
  -- the data has the mark, which is not in the last tree with a key for it
  have hhere : Ordered.get? q (trees.map (marked q)).flatten.reverse ≠ none := by
    rw [Ne, Ordered.get?_eq_none_iff, not_not, Ordered.keys, List.map_reverse]
    exact List.mem_reverse.mpr (mem_of_lastKey? hq)
  obtain ⟨t, ht⟩ := Option.ne_none_iff_exists'.mp hhere
  have htrue : t = .bool true := by
    have hmem := List.mem_reverse.mp (Ordered.mem_of_get?_eq_some ht)
    obtain ⟨_, hms, hmem⟩ := List.mem_flatten.mp hmem
    obtain ⟨ms, -, rfl⟩ := List.mem_map.mp hms
    exact (snd_of_mem_marked hmem).trans (congrArg Tree.bool (decide_eq_true rfl))
  have hbecomes : Becomes a (q, t) (k, .bool true) := by
    rw [becomes_iff ha, short_of_lastKey? hq, htrue]
    rfl
  have hdata := (mem_shaped_ofList_iff ha).mpr ⟨q, t, hq, ht, hbecomes⟩
  rw [← foldl_insertAll] at hdata
  obtain ⟨_, hlast, ⟨q', t'⟩, hm, hbecomes⟩ := hwin k (.bool true) hdata
  rw [lastOwner?_marked, hown] at hlast
  obtain rfl := Option.some.inj hlast
  have hvalue : t' = .bool (q' = q) := snd_of_mem_marked hm
  rw [hvalue] at hbecomes
  obtain rfl := eq_of_becomes_mark ha hbecomes
  apply hnot
  rw [← keys_marked q' own]
  exact List.mem_map_of_mem hm

end Trees

end Locale

namespace Bundle

open FrontendSync.Locale Adapter

/-- Later roots win for every key of the data if the keys keep their precedence; if they do not,
there are values under the same keys for which a later root does not win. -/
theorem laterRootsWin_load {d : Disk} {lookup : Lookup} {roots : List Path} {locale : String}
    {found : List (Option Members)} (h : roots.mapM (ofRoot d lookup locale) = .ok found)
    (hfound : found.filterMap id ≠ []) {a : Adapter} (ha : a ∈ [vueI18n, passthrough, source])
    (target : Target) :
    ∃ b, load d lookup roots a false target locale = .ok b ∧
      (KeepsPrecedence ((found.filterMap id).map Ordered.keys) →
        LaterRootsWin a (found.filterMap id) b.data) ∧
      (¬KeepsPrecedence ((found.filterMap id).map Ordered.keys) →
        ∃ trees : List Members, trees.map Ordered.keys = (found.filterMap id).map Ordered.keys ∧
          ¬LaterRootsWin a trees (shaped a false (trees.foldl Ordered.insertAll []))) := by
  refine ⟨_, by rw [load, ofRoots_eq_ok h hfound]; rfl, ?_, ?_⟩
  · exact laterRootsWin_foldl (isSingular_of_mem ha)
  · exact exists_not_laterRootsWin (isSingular_of_mem ha)

/-! ## Two roots -/

/-- Two roots that have only a JSON file each. -/
def twoRoots (first second : String) : Disk :=
  ⟨.dir [("a", .dir [("en.json", .file first.toUTF8)]),
    ("b", .dir [("en.json", .file second.toUTF8)])]⟩

/-- The integers of members that are all integers. -/
def ints? (ms : Members) : Option (List (String × Int)) :=
  ms.mapM fun (k, t) ↦
    match t with
    | .int n => some (k, n)
    | _ => none

def ofInts (ns : List (String × Int)) : Members := ns.map fun (k, n) ↦ (k, .int n)

theorem eq_ofInts {ms : Members} {ns : List (String × Int)} (h : ints? ms = some ns) :
    ms = ofInts ns := by
  have hall := mapM_eq_some_iff.mp h
  clear h
  induction hall with
  | nil => rfl
  | @cons m n ms ns hm _ ih =>
    obtain ⟨k, t⟩ := m
    cases t with
    | int i =>
      obtain rfl := Option.some.inj hm
      rw [ih]
      rfl
    | null | bool _ | float _ | text _ | list _ | map _ => contradiction

/-- What both roots hold, and the data that is made of it. -/
def MergesTo (d : Disk) (found : List (Option Members)) (b : Bundle) : Prop :=
  [⟨"a"⟩, ⟨"b"⟩].mapM (ofRoot d (fun _ _ ↦ none) "en") = .ok found ∧
    load d (fun _ _ ↦ none) [⟨"a"⟩, ⟨"b"⟩] source false enTarget "en" = .ok b

def mergedInts? (d : Disk) : Option (List (List (String × Int)) × List (String × Int)) := do
  let found ← ([⟨"a"⟩, ⟨"b"⟩].mapM (ofRoot d (fun _ _ ↦ none) "en")).toOption
  let trees ← (found.filterMap id).mapM ints?
  let b ← (load d (fun _ _ ↦ none) [⟨"a"⟩, ⟨"b"⟩] source false enTarget "en").toOption
  return (trees, ← ints? b.data)

theorem exists_mergesTo {d : Disk} {trees : List (List (String × Int))}
    {data : List (String × Int)} (h : mergedInts? d = some (trees, data)) :
    ∃ found b, MergesTo d found b ∧ found.filterMap id = trees.map ofInts ∧
      b.data = ofInts data := by
  obtain ⟨found, hfound, h⟩ := Option.bind_eq_some_iff.mp h
  obtain ⟨trees', htrees, h⟩ := Option.bind_eq_some_iff.mp h
  obtain ⟨b, hb, h⟩ := Option.bind_eq_some_iff.mp h
  obtain ⟨data', hdata, h⟩ := Option.bind_eq_some_iff.mp h
  obtain ⟨rfl, rfl⟩ := Prod.mk.inj (Option.some.inj h)
  have hmerges : MergesTo d found b :=
    ⟨toOption_eq_some_iff.mp hfound, toOption_eq_some_iff.mp hb⟩
  refine ⟨found, b, hmerges, ?_, eq_ofInts hdata⟩
  rw [← List.forall₂_eq_eq_eq, List.forall₂_map_right_iff]
  exact (mapM_eq_some_iff.mp htrees).imp fun _ _ ↦ eq_ofInts

theorem source_mem : source ∈ [vueI18n, passthrough, source] :=
  List.mem_cons_of_mem _ (List.mem_cons_of_mem _ List.mem_cons_self)

/-- The second root qualifies a key of the first. -/
def qualifiedDisk : Disk := twoRoots "\x7b\"X\": 1, \"Y\": 1\x7d" "\x7b\"A\\\\X\": 2\x7d"

theorem laterRootsWin_load_qualifiedDisk :
    ∃ found b, MergesTo qualifiedDisk found b ∧ found.filterMap id ≠ [] ∧
      KeepsPrecedence ((found.filterMap id).map Ordered.keys) ∧
        b.data = [("X", .int 2), ("Y", .int 1)] ∧
          LaterRootsWin source (found.filterMap id) b.data := by
  have hmerged : mergedInts? qualifiedDisk
      = some ([[("X", 1), ("Y", 1)], [("A\\X", 2)]], [("X", 2), ("Y", 1)]) := by decide +kernel
  obtain ⟨found, b, hmerges, htrees, hdata⟩ := exists_mergesTo hmerged
  have hne : found.filterMap id ≠ [] := by
    rw [htrees]
    exact List.cons_ne_nil _ _
  have hkeeps : KeepsPrecedence ((found.filterMap id).map Ordered.keys) := by
    rw [htrees]
    decide +kernel
  obtain ⟨b', hb', hwin, -⟩ := laterRootsWin_load hmerges.1 hne source_mem enTarget
  obtain rfl : b = b' := Except.ok.inj (hmerges.2.symm.trans hb')
  exact ⟨found, b, hmerges, hne, hkeeps, hdata, hwin hkeeps⟩

/-- The first root qualifies a key that both roots have. -/
def crossedDisk : Disk := twoRoots "\x7b\"X\": 1, \"A\\\\X\": 2\x7d" "\x7b\"X\": 3\x7d"

theorem not_laterRootsWin_crossedDisk :
    ∃ found b, MergesTo crossedDisk found b ∧
      ¬LaterRootsWin source (found.filterMap id) b.data := by
  have hmerged : mergedInts? crossedDisk
      = some ([[("X", 1), ("A\\X", 2)], [("X", 3)]], [("X", 2)]) := by decide +kernel
  obtain ⟨found, b, hmerges, htrees, hdata⟩ := exists_mergesTo hmerged
  refine ⟨found, b, hmerges, fun hwin ↦ ?_⟩
  have hmem : ("X", Tree.int 2) ∈ b.data := by
    rw [hdata]
    exact List.mem_cons_self
  obtain ⟨own, hown, m, hm, hbecomes⟩ := hwin "X" (.int 2) hmem
  have hlast : lastOwner? "X" (found.filterMap id) = some (ofInts [("X", 3)]) := by
    rw [htrees]
    rfl
  rw [hlast] at hown
  obtain rfl := Option.some.inj hown
  obtain rfl := List.mem_singleton.mp hm
  cases (becomes_iff (isSingular_of_mem source_mem)).mp hbecomes

end Bundle

end FrontendSync
