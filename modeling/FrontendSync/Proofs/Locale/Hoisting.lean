import FrontendSync.Proofs.Locale.Merging

/-!
# Hoisting

The entries under a wrapper for enums are meant to stand at the top level.  A group file that is
named as the wrapper is merged without it, but the JSON file of a root is merged as it is.  So the
wrapper stays in the data if a JSON file has it, and the entries of a group file are there, unless
later ones take their keys, only if their keys are the last in the order of first mention among
those with the same short key.
-/

namespace FrontendSync

open FrontendSync.Tree

namespace Locale

/-- A file that contributes to a locale: the JSON file of a root, or the file of a group. -/
structure Contribution where
  group : Option String
  members : Members

namespace Contribution

/-- The members of the top level that are merged. -/
def top (c : Contribution) : Members :=
  match c.group with
  | none => c.members
  | some g => if g = hoisted then c.members else [(g, .map c.members)]

/-- The entries under a wrapper for enums. -/
def wrapped (c : Contribution) : Members :=
  match c.group with
  | none => ((Ordered.get? hoisted c.members).bind Tree.members?).getD []
  | some g => if g = hoisted then c.members else []

/-- The members of the top level with the entries of the wrapper in its place. -/
def lifted (c : Contribution) : Members :=
  match c.group with
  | none => c.members.flatMap fun m ↦
      if m.1 = hoisted then m.2.members?.getD [m] else [m]
  | some _ => c.top

/-- The group and the keys of a contribution, without values. -/
def outline (c : Contribution) : Option String × List String := (c.group, Ordered.keys c.members)

/-- The keys that are merged. -/
def topKeys : Option String × List String → List String
  | (none, ks) => ks
  | (some g, ks) => if g = hoisted then ks else [g]

theorem keys_top (c : Contribution) : Ordered.keys c.top = topKeys c.outline := by
  obtain ⟨_ | g, ms⟩ := c
  · rfl
  · by_cases hg : g = hoisted
    · simp [top, topKeys, outline, hg]
    · simp [top, topKeys, outline, hg, Ordered.keys]

theorem keys_flatMap_top (cs : List Contribution) :
    Ordered.keys (cs.flatMap top) = (cs.map outline).flatMap topKeys := by
  rw [Ordered.keys, List.map_flatMap, List.flatMap_map]
  exact List.flatMap_congr fun c _ ↦ keys_top c

/-- What has no wrapper is merged as it is. -/
theorem lifted_eq_top {c : Contribution} (h : hoisted ∉ Ordered.keys c.top) :
    c.lifted = c.top := by
  obtain ⟨_ | g, ms⟩ := c
  · change ms.flatMap _ = ms
    have hplain : ∀ m ∈ ms, (if m.1 = hoisted then m.2.members?.getD [m] else [m]) = [m] := by
      intro m hm
      have hne : m.1 ≠ hoisted := by
        intro heq
        apply h
        rw [← heq]
        exact List.mem_map_of_mem hm
      rw [if_neg hne]
    rw [List.flatMap_congr hplain, List.flatMap_singleton']
  · rfl

/-- Without a wrapper the entries that are lifted are those of the group. -/
theorem group_of_mem_wrapped {c : Contribution} (h : hoisted ∉ Ordered.keys c.top)
    {m : String × Tree} (hm : m ∈ c.wrapped) : c.group = some hoisted ∧ c.top = c.wrapped := by
  obtain ⟨_ | g, ms⟩ := c
  · have hnone : Ordered.get? hoisted ms = none := Ordered.get?_eq_none_iff.mpr h
    simp [wrapped, hnone] at hm
  · by_cases hg : g = hoisted
    · simp [top, wrapped, hg]
    · simp [wrapped, hg] at hm

/-- A contribution whose values tell which key is `q`. -/
def mark (q : String) (c : Contribution) : Contribution := ⟨c.group, marked q c.members⟩

theorem outline_mark (q : String) (c : Contribution) : (c.mark q).outline = c.outline := by
  rw [outline, mark, keys_marked]
  rfl

theorem map_outline_mark (q : String) (cs : List Contribution) :
    (cs.map (mark q)).map outline = cs.map outline := by
  rw [List.map_map]
  exact List.map_congr_left fun c _ ↦ outline_mark q c

theorem eq_or_eq_of_mem_top_mark {q : String} {c : Contribution} {m : String × Tree}
    (h : m ∈ (c.mark q).top) : m.2 = .bool (m.1 = q) ∨ ∃ ms, m.2 = .map ms := by
  obtain ⟨_ | g, ms⟩ := c
  · exact .inl (snd_of_mem_marked h)
  · rw [mark, top] at h
    split at h
    · contradiction
    · split at h
      · exact .inl (snd_of_mem_marked h)
      · obtain rfl := List.mem_singleton.mp h
        exact .inr ⟨_, rfl⟩

end Contribution

open Contribution

/-- The JSON file of a root. -/
def ofPlainFile (d : Disk) (p : Path) : Except Fault Contribution :=
  (membersOf d jsonMembers p).map (Contribution.mk none)

/-- The file of a group. -/
def ofGroupFile (d : Disk) (lookup : Lookup) (p : Path) : Except Fault Contribution :=
  (membersOf d (if isJson p then jsonMembers else ofPhp lookup) p).map
    (Contribution.mk (some (p.stem?.getD "")))

/-- The files that contribute to a locale below a root, with what they hold; none if the root does
not have the locale. -/
def contributions (d : Disk) (lookup : Lookup) (locale : String) (root : Path) :
    Except Fault (Option (List Contribution)) :=
  match filesOf? d root locale with
  | none => .ok none
  | some (plain, groups) => do
    let top ← plain.mapM (ofPlainFile d)
    let grouped ← groups.mapM (ofGroupFile d lookup)
    return some (top ++ grouped)

/-- What is merged of the files of one root. -/
def treeOf (cs : List Contribution) : Members := (cs.map top).foldl Ordered.insertAll []

theorem membersOf_eq (d : Disk) (p : Path) :
    membersOf d jsonMembers p = (ofPlainFile d p).map top := by
  rw [ofPlainFile]
  cases membersOf d jsonMembers p <;> rfl

theorem ofGroup_eq (d : Disk) (lookup : Lookup) (p : Path) :
    ofGroup d lookup p = (ofGroupFile d lookup p).map top := by
  rw [ofGroup, ofGroupFile]
  cases membersOf d (if isJson p then jsonMembers else ofPhp lookup) p with
  | error e => rfl
  | ok ms => rfl

theorem ofRoot_eq (d : Disk) (lookup : Lookup) (locale : String) (root : Path) :
    ofRoot d lookup locale root
      = (contributions d lookup locale root).map (Option.map treeOf) := by
  have hplain : membersOf d jsonMembers = fun p ↦ (ofPlainFile d p).map top :=
    funext fun p ↦ membersOf_eq d p
  have hgroup : ofGroup d lookup = fun p ↦ (ofGroupFile d lookup p).map top :=
    funext fun p ↦ ofGroup_eq d lookup p
  unfold ofRoot contributions
  cases filesOf? d root locale with
  | none => rfl
  | some files =>
    obtain ⟨plain, groups⟩ := files
    simp only [hplain, hgroup, mapM_map]
    cases plain.mapM (ofPlainFile d) with
    | error e => rfl
    | ok tops =>
      cases groups.mapM (ofGroupFile d lookup) with
      | error e => rfl
      | ok grouped =>
        change Except.ok (some ((tops.map top ++ grouped.map top).foldl Ordered.insertAll [])) = _
        rw [← List.map_append]
        rfl

theorem treeOf_eq (cs : List Contribution) : treeOf cs = Ordered.ofList (cs.flatMap top) := by
  rw [treeOf, foldl_insertAll, List.flatMap_def]

/-- The files of all roots are merged one after the other. -/
theorem ofRoots_eq_treeOf {d : Disk} {lookup : Lookup} {roots : List Path} {locale : String}
    {found : List (Option (List Contribution))}
    (h : roots.mapM (contributions d lookup locale) = .ok found)
    (hfound : found.filterMap id ≠ []) :
    ofRoots d lookup roots locale = .ok (treeOf (found.filterMap id).flatten) := by
  have hroots : roots.mapM (ofRoot d lookup locale) = .ok (found.map (Option.map treeOf)) := by
    have heach : ofRoot d lookup locale
        = fun root ↦ (contributions d lookup locale root).map (Option.map treeOf) :=
      funext fun root ↦ ofRoot_eq d lookup locale root
    rw [heach, mapM_map, h]
    rfl
  have htrees : (found.map (Option.map treeOf)).filterMap id
      = ((found.filterMap id).map (·.flatMap top)).map Ordered.ofList := by
    rw [List.filterMap_map, List.map_map, ← List.filterMap_eq_map, List.filterMap_filterMap]
    apply List.filterMap_congr
    rintro (_ | cs) _
    · rfl
    · exact congrArg some (treeOf_eq cs)
  have hne : (found.map (Option.map treeOf)).filterMap id ≠ [] := by
    rw [htrees]
    simpa using hfound
  rw [ofRoots_eq_ok hroots hne, htrees, foldl_insertAll_map_ofList, treeOf_eq, ← List.flatMap_def,
    ← List.flatMap_id, List.flatMap_assoc]
  rfl

/-! ## Lifted entries -/

/-- Outlines of contributions whose merged data has no wrapper, and in which each key of a group
of enums that is given last of those with its short key is the last of them in the order of first
mention as well. -/
structure IsLiftable (outlines : List (Option String × List String)) : Prop where
  noWrapper : ∀ o ∈ outlines, ∀ q ∈ topKeys o, Php.Name.short q ≠ hoisted
  lastMentioned : ∀ ks later, (some hoisted, ks) :: later <:+ outlines → ∀ q ∈ ks,
    (ks.filter (Php.Name.short · = Php.Name.short q)).getLast? = some q →
    (∀ o ∈ later, ∀ q' ∈ topKeys o, Php.Name.short q' ≠ Php.Name.short q) →
    lastKey? (Php.Name.short q) (outlines.flatMap topKeys) = some q

/-- It is enough to look at the rests of the list. -/
theorem isLiftable_iff {outlines : List (Option String × List String)} : IsLiftable outlines ↔
    (∀ o ∈ outlines, ∀ q ∈ topKeys o, Php.Name.short q ≠ hoisted) ∧
      ∀ rest ∈ outlines.tails, ∀ o ∈ rest.head?, o.1 = some hoisted → ∀ q ∈ o.2,
        (o.2.filter (Php.Name.short · = Php.Name.short q)).getLast? = some q →
        (∀ o' ∈ rest.tail, ∀ q' ∈ topKeys o', Php.Name.short q' ≠ Php.Name.short q) →
        lastKey? (Php.Name.short q) (outlines.flatMap topKeys) = some q := by
  constructor
  · intro h
    refine ⟨h.noWrapper, ?_⟩
    rintro (_ | ⟨⟨g, ks⟩, later⟩) hrest o ho hgroup
    · contradiction
    · obtain rfl := Option.some.inj ho
      obtain rfl : g = some hoisted := hgroup
      exact h.lastMentioned ks later ((List.mem_tails _ _).mp hrest)
  · rintro ⟨hno, hlast⟩
    refine ⟨hno, fun ks later hsuffix ↦ ?_⟩
    exact hlast _ ((List.mem_tails _ _).mpr hsuffix) (some hoisted, ks) rfl rfl

instance (outlines : List (Option String × List String)) : Decidable (IsLiftable outlines) :=
  decidable_of_iff _ isLiftable_iff.symm

/-- The data has no wrapper for enums, and it has every entry under a wrapper unless a later entry
of the same file, or a later file, has the same short key. -/
structure LiftsEnums (a : Adapter) (cs : List Contribution) (data : Members) : Prop where
  noWrapper : hoisted ∉ Ordered.keys data
  present : ∀ c later, c :: later <:+ cs → ∀ m ∈ c.wrapped,
    (c.lifted.filter (Php.Name.short ·.1 = Php.Name.short m.1)).getLast? = some m →
    (∀ c' ∈ later, ∀ m' ∈ c'.lifted, Php.Name.short m'.1 ≠ Php.Name.short m.1) →
    ∀ e, Becomes a m e → e ∈ data

/-- An entry is found if it is the last of its file with its short key and no later file has that
key. -/
theorem get?_of_getLast? {before file later : Members} {m : String × Tree}
    (hlast : (file.filter (Php.Name.short ·.1 = Php.Name.short m.1)).getLast? = some m)
    (hlater : ∀ e ∈ later, Php.Name.short e.1 ≠ Php.Name.short m.1) :
    Ordered.get? m.1 (before ++ file ++ later).reverse = some m.2 := by
  obtain ⟨-, first, rest, rfl, hrest⟩ := getLast?_filter_eq_some_iff.mp hlast
  have hfound : ((before ++ (first ++ m :: rest) ++ later).filter (·.1 = m.1)).getLast?
      = some m := by
    refine getLast?_filter_eq_some_iff.mpr
      ⟨decide_eq_true rfl, before ++ first, rest ++ later, by simp, ?_⟩
    intro e he
    apply decide_eq_false
    intro heq
    rcases List.mem_append.mp he with he | he
    · exact of_decide_eq_false (hrest e he) (congrArg Php.Name.short heq)
    · exact hlater e he (congrArg Php.Name.short heq)
  rw [Ordered.get?_reverse, hfound]
  rfl

section Data

variable {a : Adapter} (ha : a.IsSingular) {cs : List Contribution}

/-- Where no key that is merged is shortened to the wrapper, nothing has to be lifted. -/
theorem lifted_eq_top_of_noWrapper
    (h : ∀ o ∈ cs.map outline, ∀ q ∈ topKeys o, Php.Name.short q ≠ hoisted) {c : Contribution}
    (hc : c ∈ cs) : hoisted ∉ Ordered.keys c.top ∧ c.lifted = c.top := by
  have hnone : hoisted ∉ Ordered.keys c.top := by
    intro hmem
    rw [keys_top] at hmem
    exact h c.outline (List.mem_map_of_mem hc) hoisted hmem (by decide)
  exact ⟨hnone, lifted_eq_top hnone⟩

include ha

theorem hoisted_notMem_keys_iff :
    hoisted ∉ Ordered.keys (shaped a false (treeOf cs)) ↔
      ∀ o ∈ cs.map outline, ∀ q ∈ topKeys o, Php.Name.short q ≠ hoisted := by
  rw [treeOf_eq, mem_keys_shaped_ofList ha, keys_flatMap_top]
  constructor
  · intro h o ho q hq heq
    exact h ⟨q, List.mem_flatMap.mpr ⟨o, ho, hq⟩, heq⟩
  · rintro h ⟨q, hq, heq⟩
    obtain ⟨o, ho, hq⟩ := List.mem_flatMap.mp hq
    exact h o ho q hq heq

theorem liftsEnums_treeOf (h : IsLiftable (cs.map outline)) :
    LiftsEnums a cs (shaped a false (treeOf cs)) := by
  refine ⟨(hoisted_notMem_keys_iff ha).mpr h.noWrapper, ?_⟩
  intro c later hsuffix m hm hlast hlater e he
  have htop {c' : Contribution} (hc' : c' ∈ c :: later) :=
    lifted_eq_top_of_noWrapper h.noWrapper (hsuffix.subset hc')
  obtain ⟨hgroup, hwrapped⟩ := group_of_mem_wrapped (htop List.mem_cons_self).1 hm
  have hmembers : c.top = c.members := by rw [top, hgroup]; exact if_pos rfl
  rw [(htop List.mem_cons_self).2] at hlast
  have hkey : lastKey? (Php.Name.short m.1) ((cs.map outline).flatMap topKeys) = some m.1 := by
    apply h.lastMentioned (Ordered.keys c.members) (later.map outline)
    · have hoption : (some hoisted, Ordered.keys c.members) = c.outline := by rw [outline, hgroup]
      rw [hoption, ← List.map_cons]
      exact hsuffix.map outline
    · rw [← hmembers]
      exact List.mem_map_of_mem (hwrapped ▸ hm)
    · rw [← hmembers, Ordered.keys, List.filter_map, List.getLast?_map]
      exact congrArg (Option.map Prod.fst) hlast
    · intro o ho q hq
      obtain ⟨c', hc', rfl⟩ := List.mem_map.mp ho
      rw [← keys_top, ← (htop (List.mem_cons_of_mem _ hc')).2] at hq
      obtain ⟨m', hm', rfl⟩ := List.mem_map.mp hq
      exact hlater c' hc' m' hm'
  obtain ⟨before, rfl⟩ := hsuffix
  have hget : Ordered.get? m.1 ((before ++ c :: later).flatMap top).reverse = some m.2 := by
    rw [List.flatMap_append, List.flatMap_cons, ← List.append_assoc]
    apply get?_of_getLast? hlast
    intro e' he'
    obtain ⟨c', hc', he'⟩ := List.mem_flatMap.mp he'
    rw [← (htop (List.mem_cons_of_mem _ hc')).2] at he'
    exact hlater c' hc' e' he'
  rw [← keys_flatMap_top] at hkey
  have hshort : Php.Name.short m.1 = e.1 := by rw [(becomes_iff ha).mp he]
  rw [hshort] at hkey
  rw [treeOf_eq]
  exact (mem_shaped_ofList_iff ha).mpr ⟨m.1, m.2, hkey, hget, he⟩

/-- Only the entry of a marked key has the mark. -/
theorem eq_of_becomes_of_mem_mark {q q' k : String} {t : Tree}
    (hmem : (q', t) ∈ (cs.map (mark q)).flatMap top) (h : Becomes a (q', t) (k, .bool true)) :
    q' = q := by
  obtain ⟨_, hc, hmem⟩ := List.mem_flatMap.mp hmem
  obtain ⟨c, -, rfl⟩ := List.mem_map.mp hc
  rcases eq_or_eq_of_mem_top_mark hmem with hbool | ⟨ms, hmap⟩
  · obtain rfl : t = .bool (q' = q) := hbool
    exact eq_of_becomes_mark ha h
  · obtain rfl : t = .map ms := hmap
    cases (Prod.mk.inj ((becomes_iff ha).mp h)).2

omit ha in
/-- Marks do not change which keys are lifted. -/
theorem short_ne_of_mem_lifted_mark {later : List Contribution} {q : String}
    (hno : ∀ o ∈ later.map outline, ∀ q ∈ topKeys o, Php.Name.short q ≠ hoisted)
    (hlater : ∀ o ∈ later.map outline, ∀ q' ∈ topKeys o, Php.Name.short q' ≠ Php.Name.short q) :
    ∀ c ∈ later.map (mark q), ∀ m ∈ c.lifted, Php.Name.short m.1 ≠ Php.Name.short q := by
  intro c hc m hm
  rw [← map_outline_mark q] at hno hlater
  rw [(lifted_eq_top_of_noWrapper hno hc).2] at hm
  apply hlater c.outline (List.mem_map_of_mem hc)
  rw [← keys_top]
  exact List.mem_map_of_mem hm

/-- The mark of a key of a group of enums is lifted only if that key is the last of those with its
short key. -/
theorem not_liftsEnums_mark {before later : List Contribution} {ms : Members} {q : String}
    (hcs : cs = before ++ ⟨some hoisted, ms⟩ :: later)
    (hno : ∀ o ∈ cs.map outline, ∀ q ∈ topKeys o, Php.Name.short q ≠ hoisted)
    (hlast : ((Ordered.keys ms).filter (Php.Name.short · = Php.Name.short q)).getLast? = some q)
    (hlater : ∀ o ∈ later.map outline, ∀ q' ∈ topKeys o, Php.Name.short q' ≠ Php.Name.short q)
    (hkey : lastKey? (Php.Name.short q) ((cs.map outline).flatMap topKeys) ≠ some q) :
    ¬LiftsEnums a (cs.map (mark q)) (shaped a false (treeOf (cs.map (mark q)))) := by
  intro hlifts
  have hgroup : (mark q ⟨some hoisted, ms⟩).lifted = marked q ms ∧
      (mark q ⟨some hoisted, ms⟩).wrapped = marked q ms := by
    rw [mark, lifted, top, wrapped]
    exact ⟨if_pos rfl, if_pos rfl⟩
  have hsuffix : mark q ⟨some hoisted, ms⟩ :: later.map (mark q) <:+ cs.map (mark q) := by
    rw [hcs, List.map_append, List.map_cons]
    exact List.suffix_append _ _
  have hmarked := getLast?_filter_marked hlast
  have hwrapped : (q, .bool true) ∈ (mark q ⟨some hoisted, ms⟩).wrapped := by
    rw [hgroup.2]
    exact (List.mem_filter.mp (List.mem_of_getLast? hmarked)).1
  rw [← hgroup.1] at hmarked
  have hlater' := by
    refine short_ne_of_mem_lifted_mark (fun o ho ↦ hno o ?_) hlater
    rw [hcs, List.map_append, List.map_cons]
    exact List.mem_append_right _ (List.mem_cons_of_mem _ ho)
  have hbecomes : Becomes a (q, .bool true) (Php.Name.short q, .bool true) :=
    (becomes_iff ha).mpr rfl
  have hdata := hlifts.present _ _ hsuffix (q, .bool true) hwrapped hmarked hlater' _ hbecomes
  rw [treeOf_eq] at hdata
  obtain ⟨q', t, hq', ht, hbecomes'⟩ := (mem_shaped_ofList_iff ha).mp hdata
  rw [keys_flatMap_top, map_outline_mark] at hq'
  have hmem := List.mem_reverse.mp (Ordered.mem_of_get?_eq_some ht)
  obtain rfl := eq_of_becomes_of_mem_mark ha hmem hbecomes'
  exact hkey hq'

/-- Where the outlines are not liftable, some values under the same keys tell. -/
theorem exists_not_liftsEnums (h : ¬IsLiftable (cs.map outline)) :
    ∃ cs' : List Contribution, cs'.map outline = cs.map outline ∧
      ¬LiftsEnums a cs' (shaped a false (treeOf cs')) := by
  by_cases hno : ∀ o ∈ cs.map outline, ∀ q ∈ topKeys o, Php.Name.short q ≠ hoisted
  · have hlast : ¬∀ ks later, (some hoisted, ks) :: later <:+ cs.map outline → ∀ q ∈ ks,
        (ks.filter (Php.Name.short · = Php.Name.short q)).getLast? = some q →
        (∀ o ∈ later, ∀ q' ∈ topKeys o, Php.Name.short q' ≠ Php.Name.short q) →
        lastKey? (Php.Name.short q) ((cs.map outline).flatMap topKeys) = some q :=
      fun hlast ↦ h ⟨hno, hlast⟩
    simp only [not_forall] at hlast
    obtain ⟨ks, later, ⟨before, houtlines⟩, q, -, hlast, hlater, hkey⟩ := hlast
    obtain ⟨before, tail, hcs, -, htail⟩ := List.map_eq_append_iff.mp houtlines.symm
    obtain ⟨⟨g, ms⟩, later, rfl, hc, rfl⟩ := List.map_eq_cons_iff.mp htail
    obtain ⟨rfl, rfl⟩ := Prod.mk.inj hc
    exact ⟨cs.map (mark q), map_outline_mark q cs,
      not_liftsEnums_mark ha hcs hno hlast hlater hkey⟩
  · exact ⟨cs, rfl, fun hlifts ↦ hno ((hoisted_notMem_keys_iff ha).mp hlifts.noWrapper)⟩

end Data

end Locale

namespace Bundle

open FrontendSync.Locale Adapter Contribution

/-- Enums are lifted to the top level if the outlines of the files are liftable; if they are not,
there are values under the same keys with which enums are not lifted. -/
theorem liftsEnums_load {d : Disk} {lookup : Lookup} {roots : List Path} {locale : String}
    {found : List (Option (List Contribution))}
    (h : roots.mapM (contributions d lookup locale) = .ok found)
    (hfound : found.filterMap id ≠ []) {a : Adapter} (ha : a ∈ [vueI18n, passthrough, source])
    (target : Target) :
    ∃ b, load d lookup roots a false target locale = .ok b ∧
      (IsLiftable ((found.filterMap id).flatten.map outline) →
        LiftsEnums a (found.filterMap id).flatten b.data) ∧
      (¬IsLiftable ((found.filterMap id).flatten.map outline) →
        ∃ cs : List Contribution, cs.map outline = (found.filterMap id).flatten.map outline ∧
          ¬LiftsEnums a cs (shaped a false (treeOf cs))) := by
  refine ⟨_, by rw [load, ofRoots_eq_treeOf h hfound]; rfl, ?_, ?_⟩
  · exact liftsEnums_treeOf (isSingular_of_mem ha)
  · exact exists_not_liftsEnums (isSingular_of_mem ha)

/-! ## One root -/

/-- What the files of a root hold, and the data that is made of it. -/
def LiftsTo (d : Disk) (found : List (Option (List Contribution))) (b : Bundle) : Prop :=
  [⟨"lang"⟩].mapM (contributions d (fun _ _ ↦ none) "en") = .ok found ∧
    load d (fun _ _ ↦ none) [⟨"lang"⟩] vueI18n false enTarget "en" = .ok b

/-- The outlines of the files of a root, and the keys of the data. -/
def lifting? (d : Disk) : Option (List (Option String × List String) × List String) := do
  let found ← ([⟨"lang"⟩].mapM (contributions d (fun _ _ ↦ none) "en")).toOption
  let b ← (load d (fun _ _ ↦ none) [⟨"lang"⟩] vueI18n false enTarget "en").toOption
  return ((found.filterMap id).flatten.map outline, Ordered.keys b.data)

theorem exists_liftsTo {d : Disk} {outlines : List (Option String × List String)}
    {ks : List String} (h : lifting? d = some (outlines, ks)) :
    ∃ found b, LiftsTo d found b ∧ (found.filterMap id).flatten.map outline = outlines ∧
      Ordered.keys b.data = ks := by
  obtain ⟨found, hfound, h⟩ := Option.bind_eq_some_iff.mp h
  obtain ⟨b, hb, h⟩ := Option.bind_eq_some_iff.mp h
  obtain ⟨houtlines, hkeys⟩ := Prod.mk.inj (Option.some.inj h)
  exact ⟨found, b, ⟨toOption_eq_some_iff.mp hfound, toOption_eq_some_iff.mp hb⟩, houtlines, hkeys⟩

/-- A group of enums with a qualified key for a key of the JSON file. -/
def groupDisk : Disk :=
  ⟨.dir [("lang", .dir [
    ("en", .dir [("auth.json", .file "\x7b\"ok\": 1\x7d".toUTF8),
      ("enums.php", .file "<?php return ['A\\Status' => ['on' => ':n|off']];".toUTF8)]),
    ("en.json", .file "\x7b\"Status\": 0\x7d".toUTF8)])]⟩

theorem liftsEnums_load_groupDisk :
    ∃ found b, LiftsTo groupDisk found b ∧ found.filterMap id ≠ [] ∧
      IsLiftable ((found.filterMap id).flatten.map outline) ∧
        Ordered.keys b.data = ["Status", "auth"] ∧
          LiftsEnums vueI18n (found.filterMap id).flatten b.data := by
  have hlifting : lifting? groupDisk = some ([(none, ["Status"]), (some "auth", ["ok"]),
      (some "enums", ["A\\Status"])], ["Status", "auth"]) := by decide +kernel
  obtain ⟨found, b, hlifts, houtlines, hkeys⟩ := exists_liftsTo hlifting
  have hne : found.filterMap id ≠ [] := by
    intro hnil
    rw [hnil] at houtlines
    cases houtlines
  have hliftable : IsLiftable ((found.filterMap id).flatten.map outline) := by
    rw [houtlines]
    decide +kernel
  obtain ⟨b', hb', hlifted, -⟩ := liftsEnums_load hlifts.1 hne List.mem_cons_self enTarget
  obtain rfl : b = b' := Except.ok.inj (hlifts.2.symm.trans hb')
  exact ⟨found, b, hlifts, hne, hliftable, hkeys, hlifted hliftable⟩

/-- The wrapper in the JSON file of a root. -/
theorem not_liftsEnums_jsonDisk :
    ∃ found b, LiftsTo (jsonDisk "\x7b\"enums\": \x7b\"Status\": \"x\"\x7d\x7d") found b ∧
      Ordered.keys b.data = ["enums"] ∧
        ¬LiftsEnums vueI18n (found.filterMap id).flatten b.data := by
  have hlifting : lifting? (jsonDisk "\x7b\"enums\": \x7b\"Status\": \"x\"\x7d\x7d")
      = some ([(none, ["enums"])], ["enums"]) := by decide +kernel
  obtain ⟨found, b, hlifts, -, hkeys⟩ := exists_liftsTo hlifting
  refine ⟨found, b, hlifts, hkeys, fun hlifted ↦ hlifted.noWrapper ?_⟩
  rw [hkeys]
  exact List.mem_cons_self

end Bundle

end FrontendSync
