import FrontendSync.Proofs.Locale.Keys
import FrontendSync.Proofs.Locale.Places

/-!
# Flattening as insertion of leaves

Flat data has the leaves of a tree, inserted in depth-first order under the texts of their places
joined with dots.  Each of them keeps a key of its own as long as no key contains a dot, and flat
data is not changed by flattening it again.
-/

namespace FrontendSync.Tree

/-- A scalar or an empty container. -/
def isLeaf : Tree → Bool
  | map ms => ms.isEmpty
  | list ts => ts.isEmpty
  | _ => true

/-- A step as it is written in a joined key. -/
def Step.text : Step → String
  | key k => k
  | index i => Decimal.ofNat i

/-- The texts of a path, if there is one, and of the steps behind it with dots between them. -/
def joined (path : Option String) (place : List Step) : String :=
  ".".intercalate (path.toList ++ place.map Step.text)

/-- Places behind one step, with what stands there. -/
def behind (step : Step) (es : List (List Step × Tree)) : List (List Step × Tree) :=
  es.map fun e ↦ (step :: e.1, e.2)

mutual

/-- The leaves at and below a tree with their places, in depth-first order. -/
def leafPlaces : Tree → List (List Step × Tree)
  | map [] => [([], map [])]
  | list [] => [([], list [])]
  | map (m :: ms) => memberPlaces (m :: ms)
  | list (t :: ts) => itemPlaces 0 (t :: ts)
  | t => [([], t)]

def memberPlaces : Members → List (List Step × Tree)
  | [] => []
  | (k, t) :: ms => behind (.key k) (leafPlaces t) ++ memberPlaces ms

def itemPlaces (n : Nat) : List Tree → List (List Step × Tree)
  | [] => []
  | t :: ts => behind (.index n) (leafPlaces t) ++ itemPlaces (n + 1) ts

end

/-- On the way through a tree, each member of a map and each item of a list with all that is below
it before the next one, the first place is come to before the second. -/
inductive ComesBefore : Tree → List Step → List Step → Prop
  | keys {ms : Members} {j k : String} {p q : List Step} :
      (Ordered.keys ms).idxOf j < (Ordered.keys ms).idxOf k →
      ComesBefore (.map ms) (.key j :: p) (.key k :: q)
  | indices {ts : List Tree} {i j : Nat} {p q : List Step} : i < j →
      ComesBefore (.list ts) (.index i :: p) (.index j :: q)
  | member {ms : Members} {k : String} {t : Tree} {p q : List Step} :
      Ordered.get? k ms = some t → ComesBefore t p q →
      ComesBefore (.map ms) (.key k :: p) (.key k :: q)
  | item {ts : List Tree} {i : Nat} {t : Tree} {p q : List Step} :
      ts[i]? = some t → ComesBefore t p q →
      ComesBefore (.list ts) (.index i :: p) (.index i :: q)

variable {t u v : Tree} {ms : Members} {ts : List Tree} {place : List Step}

/-- No place is come to before itself. -/
theorem ComesBefore.ne {p q : List Step} (h : ComesBefore t p q) : p ≠ q := by
  induction h with
  | keys hlt =>
    rintro ⟨⟩
    exact absurd hlt (Nat.lt_irrefl _)
  | indices hlt =>
    rintro ⟨⟩
    exact absurd hlt (Nat.lt_irrefl _)
  | member _ _ ih | item _ _ ih => exact fun heq ↦ ih (List.cons.inj heq).2

/-! ## Places of leaves -/

theorem memberPlaces_eq_flatMap (ms : Members) :
    memberPlaces ms = ms.flatMap fun m ↦ behind (.key m.1) (leafPlaces m.2) := by
  induction ms with
  | nil => rfl
  | cons m ms ih => rw [memberPlaces, ih, List.flatMap_cons]

theorem itemPlaces_eq_flatMap (n : Nat) (ts : List Tree) :
    itemPlaces n ts = (ts.zipIdx n).flatMap fun e ↦ behind (.index e.2) (leafPlaces e.1) := by
  induction ts generalizing n with
  | nil => rfl
  | cons t ts ih => rw [itemPlaces, ih, List.zipIdx_cons, List.flatMap_cons]

/-- A tree is a leaf itself, or its leaves are those of its members or items. -/
theorem leafPlaces_cases (t : Tree) :
    (t.isLeaf = true ∧ leafPlaces t = [([], t)]) ∨
      (∃ ms, t = map ms ∧ t.isLeaf = false ∧
        leafPlaces t = ms.flatMap fun m ↦ behind (.key m.1) (leafPlaces m.2)) ∨
      ∃ ts, t = list ts ∧ t.isLeaf = false ∧
        leafPlaces t = ts.zipIdx.flatMap fun e ↦ behind (.index e.2) (leafPlaces e.1) := by
  cases t with
  | null | bool _ | int _ | float _ | text _ => exact .inl ⟨rfl, rfl⟩
  | map ms =>
    cases ms with
    | nil => exact .inl ⟨rfl, rfl⟩
    | cons m ms =>
      exact .inr (.inl ⟨m :: ms, rfl, rfl, by rw [leafPlaces, memberPlaces_eq_flatMap]⟩)
  | list ts =>
    cases ts with
    | nil => exact .inl ⟨rfl, rfl⟩
    | cons t ts =>
      exact .inr (.inr ⟨t :: ts, rfl, rfl, by rw [leafPlaces, itemPlaces_eq_flatMap]⟩)

theorem mem_behind_iff {step : Step} {es : List (List Step × Tree)} {e : List Step × Tree} :
    e ∈ behind step es ↔ ∃ rest, e.1 = step :: rest ∧ (rest, e.2) ∈ es := by
  rw [behind, List.mem_map]
  constructor
  · rintro ⟨e, he, rfl⟩
    exact ⟨e.1, rfl, he⟩
  · rintro ⟨rest, hrest, he⟩
    exact ⟨_, he, by rw [← hrest]⟩

/-- The root is listed if it is a leaf itself. -/
theorem nil_mem_leafPlaces_iff : ([], u) ∈ leafPlaces t ↔ t = u ∧ u.isLeaf = true := by
  rcases leafPlaces_cases t with ⟨hleaf, heq⟩ | ⟨ms, rfl, hleaf, heq⟩ | ⟨ts, rfl, hleaf, heq⟩
  · rw [heq, List.mem_singleton, Prod.mk.injEq]
    constructor
    · rintro ⟨-, rfl⟩
      exact ⟨rfl, hleaf⟩
    · rintro ⟨rfl, -⟩
      exact ⟨rfl, rfl⟩
  all_goals
    rw [heq]
    refine iff_of_false (fun hmem ↦ ?_) ?_
    · obtain ⟨_, -, hmem⟩ := List.mem_flatMap.mp hmem
      obtain ⟨rest, hrest, -⟩ := mem_behind_iff.mp hmem
      exact absurd hrest.symm (List.cons_ne_nil _ _)
    · rintro ⟨rfl, htrue⟩
      exact Bool.noConfusion (hleaf.symm.trans htrue)

theorem at?_cons_of_isLeaf (h : t.isLeaf = true) (step : Step) (place : List Step) :
    t.at? (step :: place) ≠ some u := by
  intro hu
  rcases at?_cons_eq_some_iff.mp hu with
    ⟨ms, k, v, rfl, -, hv, -⟩ | ⟨ts, i, v, rfl, -, hv, -⟩
  · rw [List.isEmpty_iff.mp h] at hv
    simp at hv
  · rw [List.isEmpty_iff.mp h] at hv
    simp at hv

/-- Behind a step those places are listed that are listed for the tree it leads to. -/
theorem cons_mem_leafPlaces_iff (h : t.WellFormed) {step : Step} :
    (step :: place, u) ∈ leafPlaces t ↔
      ∃ v, t.at? [step] = some v ∧ (place, u) ∈ leafPlaces v := by
  rcases leafPlaces_cases t with ⟨hleaf, heq⟩ | ⟨ms, rfl, hleaf, heq⟩ | ⟨ts, rfl, hleaf, heq⟩
  · rw [heq, List.mem_singleton]
    exact iff_of_false (by simp) fun ⟨_, hv, _⟩ ↦ at?_cons_of_isLeaf hleaf step [] hv
  · obtain ⟨hkeys, -⟩ := wellFormed_map_iff.mp h
    rw [heq, List.mem_flatMap]
    simp only [at?_cons_eq_some_iff, at?_nil, Option.some.injEq]
    constructor
    · rintro ⟨m, hm, hmem⟩
      obtain ⟨rest, hrest, hmem⟩ := mem_behind_iff.mp hmem
      obtain ⟨rfl, rfl⟩ := List.cons.inj hrest
      have hget := Ordered.get?_eq_some_of_mem hkeys hm
      exact ⟨m.2, .inl ⟨ms, m.1, m.2, rfl, rfl, hget, rfl⟩, hmem⟩
    · rintro ⟨v, ⟨_, k, _, ⟨⟩, rfl, hv, rfl⟩ | ⟨_, _, _, ⟨⟩, _⟩, hmem⟩
      have hm := Ordered.mem_of_get?_eq_some hv
      exact ⟨_, hm, mem_behind_iff.mpr ⟨place, rfl, hmem⟩⟩
  · rw [heq, List.mem_flatMap]
    simp only [at?_cons_eq_some_iff, at?_nil, Option.some.injEq]
    constructor
    · rintro ⟨⟨v, i⟩, hv, hmem⟩
      obtain ⟨rest, hrest, hmem⟩ := mem_behind_iff.mp hmem
      obtain ⟨rfl, rfl⟩ := List.cons.inj hrest
      exact ⟨v, .inr ⟨ts, i, v, rfl, rfl, List.mem_zipIdx_iff_getElem?.mp hv, rfl⟩, hmem⟩
    · rintro ⟨v, ⟨_, _, _, ⟨⟩, _⟩ | ⟨_, i, _, ⟨⟩, rfl, hv, rfl⟩, hmem⟩
      exact ⟨(_, i), List.mem_zipIdx_iff_getElem?.mpr hv, mem_behind_iff.mpr ⟨place, rfl, hmem⟩⟩

/-- The listed places are those where a leaf stands. -/
theorem mem_leafPlaces_iff (h : t.WellFormed) :
    (place, u) ∈ leafPlaces t ↔ t.at? place = some u ∧ u.isLeaf = true := by
  induction place generalizing t with
  | nil =>
    rw [at?_nil, Option.some_inj]
    exact nil_mem_leafPlaces_iff
  | cons step place ih =>
    rw [cons_mem_leafPlaces_iff h, at?_cons_eq_some_iff_exists]
    constructor
    · rintro ⟨v, hv, hmem⟩
      obtain ⟨hu, hleaf⟩ := (ih (h.of_at? hv)).mp hmem
      exact ⟨⟨v, hv, hu⟩, hleaf⟩
    · rintro ⟨⟨v, hv, hu⟩, hleaf⟩
      exact ⟨v, hv, (ih (h.of_at? hv)).mpr ⟨hu, hleaf⟩⟩

theorem forall_comesBefore_behind {step step' : Step} {es es' : List (List Step × Tree)}
    (h : ∀ p q, ComesBefore t (step :: p) (step' :: q)) :
    ∀ e ∈ behind step es, ∀ f ∈ behind step' es', ComesBefore t e.1 f.1 := by
  intro e he f hf
  obtain ⟨p, hp, -⟩ := mem_behind_iff.mp he
  obtain ⟨q, hq, -⟩ := mem_behind_iff.mp hf
  rw [hp, hq]
  exact h p q

/-- The places are listed in the order in which they are come to. -/
theorem pairwise_comesBefore_leafPlaces (h : t.WellFormed) :
    (leafPlaces t).Pairwise fun e f ↦ ComesBefore t e.1 f.1 := by
  induction h with
  | null | bool _ | int _ | float _ | text _ => exact List.pairwise_singleton _ _
  | @map ms hkeys _ ih =>
    rcases leafPlaces_cases (.map ms) with ⟨-, heq⟩ | ⟨_, ⟨⟩, -, heq⟩ | ⟨_, ⟨⟩, _⟩
    · exact heq ▸ List.pairwise_singleton _ _
    rw [heq, List.pairwise_flatMap]
    constructor
    · intro m hm
      have hget := Ordered.get?_eq_some_of_mem hkeys hm
      exact List.pairwise_map.mpr ((ih m hm).imp fun hbefore ↦ .member hget hbefore)
    · refine List.pairwise_iff_getElem.mpr fun i j hi hj hij ↦ ?_
      have hidx (i : Nat) (hi : i < ms.length) : (Ordered.keys ms).idxOf ms[i].1 = i := by
        have hnodup := hkeys.idxOf_getElem i (by simpa [Ordered.keys] using hi)
        simpa [Ordered.keys] using hnodup
      refine forall_comesBefore_behind fun p q ↦ .keys ?_
      rwa [hidx i hi, hidx j hj]
  | @list ts _ ih =>
    rcases leafPlaces_cases (.list ts) with ⟨-, heq⟩ | ⟨_, ⟨⟩, _⟩ | ⟨_, ⟨⟩, -, heq⟩
    · exact heq ▸ List.pairwise_singleton _ _
    rw [heq, List.pairwise_flatMap]
    constructor
    · rintro ⟨t, i⟩ ht
      have ht := List.mem_zipIdx_iff_getElem?.mp ht
      have hbefore := ih t (List.mem_of_getElem? ht)
      exact List.pairwise_map.mpr (hbefore.imp fun hbefore ↦ .item ht hbefore)
    · refine List.pairwise_iff_getElem.mpr fun i j hi hj hij ↦ ?_
      refine forall_comesBefore_behind fun p q ↦ .indices ?_
      simpa using hij

/-! ## Joined keys -/

theorem joined_nil (path : Option String) : joined path [] = path.getD "" := by
  cases path with
  | none => rfl
  | some p => simp [joined]

/-- A step is joined to the path before the steps behind it are. -/
theorem joined_cons (path : Option String) (step : Step) (place : List Step) :
    joined path (step :: place) = joined (some (joinKey path step.text)) place := by
  cases path with
  | none => rfl
  | some p =>
    cases place with
    | nil => simp [joined, joinKey, String.intercalate_cons_cons, String.append_assoc]
    | cons next place =>
      simp [joined, joinKey, String.intercalate_cons_cons, String.append_assoc]

/-- The leaves with their places joined to a path. -/
def joinAll (path : Option String) (es : List (List Step × Tree)) : Members :=
  es.map fun e ↦ (joined path e.1, e.2)

theorem joinAll_behind (path : Option String) (step : Step) (es : List (List Step × Tree)) :
    joinAll path (behind step es) = joinAll (some (joinKey path step.text)) es := by
  simp only [joinAll, behind, List.map_map, Function.comp_def, joined_cons]

mutual

theorem leaves_eq_joinAll (path : Option String) (t : Tree) :
    leaves path t = joinAll path (leafPlaces t) := by
  match t with
  | map [] | list [] | null | bool _ | int _ | float _ | text _ =>
    simp [leaves, leafPlaces, joinAll, joined_nil]
  | map (m :: ms) => rw [leaves, leafPlaces, memberLeaves_eq_joinAll]
  | list (t :: ts) => rw [leaves, leafPlaces, itemLeaves_eq_joinAll]

theorem memberLeaves_eq_joinAll (path : Option String) (ms : Members) :
    memberLeaves path ms = joinAll path (memberPlaces ms) := by
  match ms with
  | [] => rfl
  | (k, t) :: ms =>
    rw [memberLeaves, memberPlaces, joinAll, List.map_append, ← joinAll, ← joinAll, joinAll_behind,
      leaves_eq_joinAll, memberLeaves_eq_joinAll]
    rfl

theorem itemLeaves_eq_joinAll (path : Option String) (n : Nat) (ts : List Tree) :
    itemLeaves path n ts = joinAll path (itemPlaces n ts) := by
  match ts with
  | [] => rfl
  | t :: ts =>
    rw [itemLeaves, itemPlaces, joinAll, List.map_append, ← joinAll, ← joinAll, joinAll_behind,
      leaves_eq_joinAll, itemLeaves_eq_joinAll]
    rfl

end

theorem flatten_eq_ofList_joinAll (ms : Members) :
    flatten (map ms) = Ordered.ofList (joinAll none (leafPlaces (map ms))) := by
  rw [flatten, leaves_eq_joinAll]

/-- The texts on the way to a place of a tree determine the place. -/
theorem place_eq_of_map_text {p q : List Step} (hp : t.at? p = some u) (hq : t.at? q = some v)
    (h : p.map Step.text = q.map Step.text) : p = q := by
  induction p generalizing t q with
  | nil => exact (List.map_eq_nil_iff.mp h.symm).symm
  | cons step p ih =>
    cases q with
    | nil => exact absurd h (by simp)
    | cons step' q =>
      obtain ⟨htext, hrest⟩ := List.cons.inj h
      -- the container says whether both steps are keys or both are positions
      rcases at?_cons_eq_some_iff.mp hp with
        ⟨ms, k, w, rfl, rfl, hw, hu⟩ | ⟨ts, i, w, rfl, rfl, hw, hu⟩
      · rcases at?_cons_eq_some_iff.mp hq with
          ⟨_, k', w', ⟨⟩, rfl, hw', hv⟩ | ⟨_, _, _, ⟨⟩, _⟩
        obtain rfl : k = k' := htext
        obtain rfl : w = w' := Option.some.inj (hw.symm.trans hw')
        rw [ih hu hv hrest]
      · rcases at?_cons_eq_some_iff.mp hq with
          ⟨_, _, _, ⟨⟩, _⟩ | ⟨_, i', w', ⟨⟩, rfl, hw', hv⟩
        obtain rfl : i = i' := Decimal.digits_injective (String.ofList_injective htext)
        obtain rfl : w = w' := Option.some.inj (hw.symm.trans hw')
        rw [ih hu hv hrest]

/-! ## Flat data -/

/-- The texts of the steps to a place are keys or positions. -/
theorem forall_text_of_at? {P : String → Prop} (hpos : ∀ n, P (Decimal.ofNat n))
    (h : ∀ k ∈ deepKeys t, P k) (hu : t.at? place = some u) : ∀ step ∈ place, P step.text := by
  induction place generalizing t with
  | nil => exact fun _ hmem ↦ absurd hmem List.not_mem_nil
  | cons step place ih =>
    rw [List.forall_mem_cons]
    rcases at?_cons_eq_some_iff.mp hu with
      ⟨ms, k, v, rfl, rfl, hv, hu⟩ | ⟨ts, i, v, rfl, rfl, hv, hu⟩
    · have hk := forall_mem_deepKeys_map_iff.mp h _ (Ordered.mem_of_get?_eq_some hv)
      exact ⟨hk.1, ih hk.2 hu⟩
    · exact ⟨hpos i, ih (forall_mem_deepKeys_list_iff.mp h v (List.mem_of_getElem? hv)) hu⟩

/-- Without dots in the keys, places of leaves below the root have different joined keys. -/
theorem place_eq_of_joined_eq (hdots : ∀ k ∈ deepKeys t, '.' ∉ k.toList) {p q : List Step}
    (hp : t.at? p = some u) (hq : t.at? q = some v) (hpne : p ≠ []) (hqne : q ≠ [])
    (h : joined none p = joined none q) : p = q := by
  have hdigits (n : Nat) : '.' ∉ (Decimal.ofNat n).toList := by
    rw [Decimal.ofNat, String.toList_ofList]
    exact fun hmem ↦ absurd (Decimal.isDigit_of_mem_digits hmem) (by decide)
  have hsplit {p : List Step} {u : Tree} (hp : t.at? p = some u) (hpne : p ≠ []) :
      (joined none p).toList.splitOn '.' = (p.map Step.text).map String.toList := by
    rw [joined, String.toList_intercalate]
    refine List.splitOn_intercalate '.' ?_ (by simpa using hpne)
    simpa using forall_text_of_at? hdigits hdots hp
  have hinjective := List.map_injective_iff.mpr fun _ _ ↦ String.toList_injective
  refine place_eq_of_map_text hp hq (hinjective ?_)
  rw [← hsplit hp hpne, ← hsplit hq hqne, h]

theorem leaves_of_isLeaf (h : t.isLeaf = true) (path : Option String) :
    leaves path t = [(path.getD "", t)] := by
  match t with
  | map [] | list [] | null | bool _ | int _ | float _ | text _ => rfl
  | map (_ :: _) | list (_ :: _) => exact Bool.noConfusion h

theorem memberLeaves_of_isLeaf (h : ∀ m ∈ ms, m.2.isLeaf = true) : memberLeaves none ms = ms := by
  induction ms with
  | nil => rfl
  | cons m ms ih =>
    obtain ⟨hm, hms⟩ := List.forall_mem_cons.mp h
    rw [memberLeaves, leaves_of_isLeaf hm, ih hms]
    rfl

/-- Data of one level is flat already. -/
theorem flatten_of_isLeaf (hne : ms ≠ []) (hkeys : (Ordered.keys ms).Nodup)
    (h : ∀ m ∈ ms, m.2.isLeaf = true) : flatten (.map ms) = ms := by
  obtain ⟨m, ms, rfl⟩ := List.exists_cons_of_ne_nil hne
  rw [flatten, leaves, memberLeaves_of_isLeaf h, Ordered.ofList_of_nodup hkeys]

theorem flatten_ne_nil (ms : Members) : flatten (.map ms) ≠ [] := by
  intro hnil
  rw [flatten, Ordered.ofList, Ordered.insertAll_eq_nil_iff] at hnil
  have hcount := length_leaves none (.map ms)
  rw [hnil.2] at hcount
  exact absurd hcount.symm (Nat.ne_of_gt (leafCount_pos _))

/-- All leaves of a tree with their places, in depth-first order. -/
structure ListsLeaves (t : Tree) (es : List (List Step × Tree)) : Prop where
  complete : ∀ place u, (place, u) ∈ es ↔ t.at? place = some u ∧ u.isLeaf = true
  ordered : es.Pairwise fun e f ↦ ComesBefore t e.1 f.1

/-- Each leaf of a map is found in flat data under its joined place, which is that of no other
leaf. -/
structure KeepsLeaves (ms flat : Members) : Prop where
  injective : ∀ p q u v, (map ms).at? p = some u → u.isLeaf = true → (map ms).at? q = some v →
    v.isLeaf = true → joined none p = joined none q → p = q
  length : flat.length = leafCount (.map ms)
  get? : ∀ p u, (map ms).at? p = some u → u.isLeaf = true →
    Ordered.get? (joined none p) flat = some u

theorem listsLeaves_leafPlaces (h : t.WellFormed) : ListsLeaves t (leafPlaces t) :=
  ⟨fun _ _ ↦ mem_leafPlaces_iff h, pairwise_comesBefore_leafPlaces h⟩

theorem keepsLeaves_flatten (h : (map ms).WellFormed) (hne : ms ≠ [])
    (hdots : ∀ k ∈ deepKeys (.map ms), '.' ∉ k.toList) :
    KeepsLeaves ms (flatten (.map ms)) := by
  -- the root is no leaf, so every leaf has a step in front of it
  have hroot {p : List Step} {u : Tree} (hp : (map ms).at? p = some u) (hu : u.isLeaf = true) :
      p ≠ [] := by
    rintro rfl
    rw [at?_nil] at hp
    rw [← Option.some.inj hp] at hu
    exact hne (List.isEmpty_iff.mp hu)
  have hinj : ∀ p q u v, (map ms).at? p = some u → u.isLeaf = true →
      (map ms).at? q = some v → v.isLeaf = true → joined none p = joined none q → p = q :=
    fun p q u v hp hu hq hv ↦ place_eq_of_joined_eq hdots hp hq (hroot hp hu) (hroot hq hv)
  -- leaves that are come to one after the other are at two places, so their keys differ
  have hkeys : (Ordered.keys (joinAll none (leafPlaces (.map ms)))).Nodup := by
    rw [Ordered.keys, joinAll, List.map_map, List.Nodup, List.pairwise_map]
    refine (pairwise_comesBefore_leafPlaces h).imp_of_mem fun {e f} he hf hbefore heq ↦ ?_
    obtain ⟨hp, hu⟩ := (mem_leafPlaces_iff h).mp he
    obtain ⟨hq, hv⟩ := (mem_leafPlaces_iff h).mp hf
    exact hbefore.ne (hinj _ _ _ _ hp hu hq hv heq)
  rw [flatten_eq_ofList_joinAll, Ordered.ofList_of_nodup hkeys]
  refine ⟨hinj, ?_, fun p u hp hu ↦ ?_⟩
  · rw [← leaves_eq_joinAll, length_leaves]
  · exact Ordered.get?_eq_some_of_mem hkeys
      (List.mem_map_of_mem (f := fun e : List Step × Tree ↦ (joined none e.1, e.2))
        ((mem_leafPlaces_iff h).mpr ⟨hp, hu⟩))

/-- Flat data has the leaves at their joined places, put in one after the other; it is all leaves,
it is flat already, and without dots in the keys it keeps all leaves of a map that has members. -/
theorem flatten_eq_ofList_leaves (h : (map ms).WellFormed) :
    (∃ es, ListsLeaves (map ms) es ∧
      flatten (map ms) = Ordered.ofList (es.map fun e ↦ (joined none e.1, e.2))) ∧
    (∀ m ∈ flatten (map ms), m.2.isLeaf = true) ∧
    flatten (map (flatten (map ms))) = flatten (map ms) ∧
    (ms ≠ [] → (∀ k ∈ deepKeys (map ms), '.' ∉ k.toList) →
      KeepsLeaves ms (flatten (map ms))) := by
  have hlist := listsLeaves_leafPlaces h
  have hleaf : ∀ m ∈ flatten (map ms), m.2.isLeaf = true := by
    intro m hm
    rw [flatten_eq_ofList_joinAll] at hm
    rcases Ordered.mem_or_mem_of_mem_insertAll hm with hm | hm
    · exact absurd hm List.not_mem_nil
    · obtain ⟨⟨p, u⟩, hu, rfl⟩ := List.mem_map.mp hm
      exact ((hlist.complete p u).mp hu).2
  have hnodup : (Ordered.keys (flatten (map ms))).Nodup := by
    rw [flatten_eq_ofList_joinAll]
    exact Ordered.nodup_keys_ofList _
  exact ⟨⟨_, hlist, flatten_eq_ofList_joinAll ms⟩, hleaf,
    flatten_of_isLeaf (flatten_ne_nil ms) hnodup hleaf, keepsLeaves_flatten h⟩

/-- Empty keys, keys that are digits, and an empty map among the leaves. -/
def mixedLeaves : Members :=
  [("a", .list [.text "x", .map [("", .null)]]), ("0", .map []), ("", .map [("0", .int 1)])]

theorem flatten_mixedLeaves :
    (map mixedLeaves).WellFormed ∧ (∀ k ∈ deepKeys (map mixedLeaves), '.' ∉ k.toList) ∧
      KeepsLeaves mixedLeaves (flatten (map mixedLeaves)) := by
  have hwell : (map mixedLeaves).WellFormed := by
    simp [mixedLeaves, Ordered.keys]
    decide
  have hdots : ∀ k ∈ deepKeys (map mixedLeaves), '.' ∉ k.toList := by decide +kernel
  exact ⟨hwell, hdots, (flatten_eq_ofList_leaves hwell).2.2.2 (List.cons_ne_nil _ _) hdots⟩

end FrontendSync.Tree
