import FrontendSync.Ordered
import FrontendSync.Proofs.Lists

/-!
# Ordered members

A key is found if it is present.  Inserting under a key adds a member for it or replaces the one
there is, so keys that were distinct stay distinct.  After several insertions each key has the
value it was given last and the place where it was given first.
-/

namespace FrontendSync.Ordered

variable {κ α : Type} [DecidableEq κ] {k : κ} {v : α} {m : List (κ × α)}

theorem mem_of_get?_eq_some (h : get? k m = some v) : (k, v) ∈ m := by
  induction m with
  | nil => simp at h
  | cons p m ih =>
    obtain ⟨j, w⟩ := p
    rw [get?] at h
    split at h
    · rename_i hj
      rw [hj, Option.some.inj h]
      exact List.mem_cons_self
    · exact List.mem_cons_of_mem _ (ih h)

theorem get?_isSome_of_mem (h : (k, v) ∈ m) : (get? k m).isSome = true := by
  induction m with
  | nil => simp at h
  | cons p m ih =>
    obtain ⟨j, w⟩ := p
    rw [get?]
    split
    · rfl
    · rename_i hj
      rcases List.mem_cons.mp h with heq | h
      · exact absurd (Prod.mk.inj heq).1.symm hj
      · exact ih h

theorem contains_iff_exists_mem : contains k m = true ↔ ∃ v, (k, v) ∈ m := by
  constructor
  · intro h
    obtain ⟨v, hv⟩ := Option.isSome_iff_exists.mp h
    exact ⟨v, mem_of_get?_eq_some hv⟩
  · rintro ⟨v, hv⟩
    exact get?_isSome_of_mem hv

theorem get?_eq_none_iff : get? k m = none ↔ k ∉ keys m := by
  rw [← Option.not_isSome_iff_eq_none]
  apply not_congr
  constructor
  · intro h
    obtain ⟨v, hv⟩ := contains_iff_exists_mem.mp h
    exact List.mem_map_of_mem hv
  · intro h
    obtain ⟨⟨_, v⟩, hv, rfl⟩ := List.mem_map.mp h
    exact get?_isSome_of_mem hv

/-- With distinct keys every member is found under its key. -/
theorem get?_eq_some_of_mem (hm : (keys m).Nodup) (h : (k, v) ∈ m) : get? k m = some v := by
  induction m with
  | nil => simp at h
  | cons p m ih =>
    obtain ⟨j, w⟩ := p
    obtain ⟨hj, hm⟩ := List.nodup_cons.mp hm
    rw [get?]
    rcases List.mem_cons.mp h with heq | h
    · obtain ⟨rfl, rfl⟩ := Prod.mk.inj heq
      simp
    · have hne : j ≠ k := fun hjk ↦ hj (List.mem_map.mpr ⟨(k, v), h, hjk.symm⟩)
      rw [if_neg hne, ih hm h]

/-! ## Insertion -/

/-- The members after an insertion are the new one and some of those before. -/
theorem eq_or_mem_of_mem_insert {e : κ × α} (h : e ∈ insert k v m) : e = (k, v) ∨ e ∈ m := by
  induction m with
  | nil => exact .inl (List.mem_singleton.mp h)
  | cons p m ih =>
    obtain ⟨j, w⟩ := p
    rw [insert] at h
    split at h
    · exact (List.mem_cons.mp h).imp_right (List.mem_cons_of_mem _)
    · rcases List.mem_cons.mp h with rfl | h
      · exact .inr List.mem_cons_self
      · exact (ih h).imp_right (List.mem_cons_of_mem _)

/-- A new key goes to the end. -/
theorem insert_of_notMem (h : k ∉ keys m) : insert k v m = m ++ [(k, v)] := by
  induction m with
  | nil => rfl
  | cons p m ih =>
    obtain ⟨j, w⟩ := p
    obtain ⟨hj, hm⟩ : k ≠ j ∧ k ∉ keys m := by simpa [keys] using h
    rw [insert, if_neg (Ne.symm hj), ih hm, List.cons_append]

/-- A key that is present stays where it is. -/
theorem keys_insert_of_mem (h : k ∈ keys m) : keys (insert k v m) = keys m := by
  induction m with
  | nil => simp [keys] at h
  | cons p m ih =>
    obtain ⟨j, w⟩ := p
    rw [insert]
    split
    · rename_i hj
      simp [keys, hj]
    · rename_i hj
      have hm : k ∈ keys m := (List.mem_cons.mp h).resolve_left (Ne.symm hj)
      simpa [keys] using ih hm

theorem mem_keys_insert_iff {j : κ} : j ∈ keys (insert k v m) ↔ j ∈ keys m ∨ j = k := by
  by_cases hk : k ∈ keys m
  · rw [keys_insert_of_mem hk]
    exact ⟨.inl, fun h ↦ h.elim id fun hj ↦ hj ▸ hk⟩
  · rw [insert_of_notMem hk, keys, List.map_append, List.mem_append]
    exact or_congr_right List.mem_singleton

theorem nodup_keys_insert (h : (keys m).Nodup) : (keys (insert k v m)).Nodup := by
  by_cases hk : k ∈ keys m
  · rwa [keys_insert_of_mem hk]
  · rw [insert_of_notMem hk, keys, List.map_append, List.nodup_append]
    refine ⟨h, by simp, ?_⟩
    rintro j hj _ hk' rfl
    rw [List.map_singleton, List.mem_singleton] at hk'
    subst hk'
    exact hk hj

/-! ## Insertion of several members -/

theorem insert_ne_nil : insert k v m ≠ [] := by
  cases m with
  | nil => simp [insert]
  | cons p m => rw [insert]; split <;> simp

theorem insertAll_eq_nil_iff {other : List (κ × α)} :
    insertAll m other = [] ↔ m = [] ∧ other = [] := by
  induction other generalizing m with
  | nil => simp [insertAll]
  | cons p other ih =>
    change insertAll (insert p.1 p.2 m) other = [] ↔ _
    simp [ih, insert_ne_nil]

theorem nodup_keys_insertAll {other : List (κ × α)} (h : (keys m).Nodup) :
    (keys (insertAll m other)).Nodup := by
  induction other generalizing m with
  | nil => exact h
  | cons p other ih => exact ih (nodup_keys_insert h)

theorem mem_or_mem_of_mem_insertAll {other : List (κ × α)} {e : κ × α}
    (h : e ∈ insertAll m other) : e ∈ m ∨ e ∈ other := by
  induction other generalizing m with
  | nil => exact .inl h
  | cons p other ih =>
    rcases ih h with h | h
    · rcases eq_or_mem_of_mem_insert h with rfl | h
      · exact .inr List.mem_cons_self
      · exact .inl h
    · exact .inr (List.mem_cons_of_mem p h)

/-! ## Values and places -/

theorem get?_append (k : κ) (m m' : List (κ × α)) :
    get? k (m ++ m') = (get? k m).or (get? k m') := by
  induction m with
  | nil => rfl
  | cons p m ih =>
    rw [List.cons_append, get?, get?]
    split
    · rfl
    · exact ih

/-- Values are replaced where they stand. -/
theorem get?_map {β : Type} (k : κ) (f : α → β) (m : List (κ × α)) :
    get? k (m.map fun p ↦ (p.1, f p.2)) = (get? k m).map f := by
  induction m with
  | nil => rfl
  | cons p m ih =>
    rw [List.map_cons, get?, get?, ih]
    split <;> rfl

theorem get?_insertAll (k : κ) (m other : List (κ × α)) :
    get? k (insertAll m other) = (get? k other.reverse).or (get? k m) := by
  induction other generalizing m with
  | nil => rfl
  | cons p other ih =>
    change get? k (insertAll (insert p.1 p.2 m) other) = _
    rw [ih, get?_insert, List.reverse_cons, get?_append, Option.or_assoc]
    congr 1
    rw [get?]
    split <;> simp

/-- Of several values for a key the last one counts. -/
theorem get?_ofList (k : κ) (m : List (κ × α)) : get? k (ofList m) = get? k m.reverse := by
  rw [ofList, get?_insertAll, get?_nil, Option.or_none]

theorem get?_reverse (k : κ) (m : List (κ × α)) :
    get? k m.reverse = ((m.filter (·.1 = k)).getLast?).map Prod.snd := by
  rw [List.getLast?_filter]
  generalize m.reverse = m
  induction m with
  | nil => rfl
  | cons p m ih =>
    rw [get?, List.find?_cons]
    split
    · rename_i hp
      simp [hp]
    · rename_i hp
      simp [hp, ih]

/-- A key has the place where it was given first. -/
theorem keys_insertAll (m other : List (κ × α)) :
    keys (insertAll m other)
      = keys m ++ ((keys other).filter (· ∉ keys m)).eraseDups := by
  have hinsert (p : κ × α) (m : List (κ × α)) : keys (insert p.1 p.2 m)
      = if (keys m).any (p.1 == ·) then keys m else keys m ++ [p.1] := by
    by_cases hp : p.1 ∈ keys m
    · rw [keys_insert_of_mem hp, if_pos (by simpa using hp)]
    · rw [insert_of_notMem hp, if_neg (by simpa using hp), keys, List.map_append]
      rfl
  have hfold : keys (insertAll m other) = (keys other).foldl
      (fun ks k ↦ if ks.any (k == ·) then ks else ks ++ [k]) (keys m) := by
    induction other generalizing m with
    | nil => rfl
    | cons p other ih =>
      change keys (insertAll (insert p.1 p.2 m) other) = _
      rw [ih, hinsert]
      rfl
  rw [hfold, foldl_addNew]
  have hkept (k : κ) : (!(keys m).any (k == ·)) = decide (k ∉ keys m) := by
    rw [Bool.eq_iff_iff, Bool.not_eq_true', List.any_eq_false, decide_eq_true_iff]
    constructor
    · intro hk hmem
      exact hk k hmem (beq_self_eq_true k)
    · intro hk j hj hjk
      exact hk (beq_iff_eq.mp hjk ▸ hj)
  simp only [hkept]
  rfl

theorem keys_ofList (m : List (κ × α)) : keys (ofList m) = (keys m).eraseDups := by
  have hnew : (keys m).filter (· ∉ keys ([] : List (κ × α))) = keys m :=
    List.filter_eq_self.mpr fun _ _ ↦ decide_eq_true List.not_mem_nil
  rw [ofList, keys_insertAll, hnew]
  rfl

/-- Members with distinct keys are their keys with what is found under each. -/
theorem filterMap_get?_keys (h : (keys m).Nodup) :
    (keys m).filterMap (fun k ↦ (get? k m).map (k, ·)) = m := by
  induction m with
  | nil => rfl
  | cons p m ih =>
    obtain ⟨k, v⟩ := p
    obtain ⟨hk, hm⟩ := List.nodup_cons.mp h
    have htail : ∀ j ∈ keys m, (get? j ((k, v) :: m)).map (j, ·) = (get? j m).map (j, ·) := by
      intro j hj
      have hne : k ≠ j := by
        rintro rfl
        exact hk hj
      rw [get?, if_neg hne]
    have hhead : (get? k ((k, v) :: m)).map (k, ·) = some (k, v) := by simp [get?]
    change (k :: keys m).filterMap _ = _
    rw [List.filterMap_cons, hhead, List.filterMap_congr htail, ih hm]

theorem get?_reverse_of_nodup (h : (keys m).Nodup) (k : κ) : get? k m.reverse = get? k m := by
  cases hk : get? k m with
  | some v =>
    apply get?_eq_some_of_mem
    · rw [keys, List.map_reverse]
      exact List.pairwise_reverse.mpr (h.imp Ne.symm)
    · exact List.mem_reverse.mpr (mem_of_get?_eq_some hk)
  | none =>
    cases hreverse : get? k m.reverse with
    | none => rfl
    | some v =>
      have hmem := List.mem_reverse.mp (mem_of_get?_eq_some hreverse)
      have hfound := get?_isSome_of_mem hmem
      simp [hk] at hfound

/-- With distinct keys the last member that is looked for has the last key that is looked for. -/
theorem getLast?_filter_eq_some_iff_of_nodup (h : (keys m).Nodup) {p : κ → Bool} :
    (m.filter (p ·.1)).getLast? = some (k, v) ↔
      ((keys m).filter p).getLast? = some k ∧ get? k m = some v := by
  have hkeys : ((keys m).filter p).getLast? = (m.filter (p ·.1)).getLast?.map Prod.fst := by
    rw [← List.getLast?_map, keys, List.filter_map]
    rfl
  rw [hkeys]
  constructor
  · intro hlast
    refine ⟨by rw [hlast]; rfl, get?_eq_some_of_mem h ?_⟩
    exact (List.mem_filter.mp (List.mem_of_getLast? hlast)).1
  · rintro ⟨hlast, hk⟩
    obtain ⟨⟨j, w⟩, hj, rfl⟩ := Option.map_eq_some_iff.mp hlast
    have hmem := (List.mem_filter.mp (List.mem_of_getLast? hj)).1
    rw [get?_eq_some_of_mem h hmem] at hk
    rw [hj, Option.some.inj hk]

theorem nodup_keys_ofList (m : List (κ × α)) : (keys (ofList m)).Nodup :=
  nodup_keys_insertAll List.nodup_nil

/-- Members with distinct keys are in order already. -/
theorem ofList_of_nodup (h : (keys m).Nodup) : ofList m = m := by
  have hkeys : keys (ofList m) = keys m := by rw [keys_ofList, eraseDups_of_nodup h]
  have hget (k : κ) : get? k (ofList m) = get? k m := by rw [get?_ofList, get?_reverse_of_nodup h]
  rw [← filterMap_get?_keys (nodup_keys_ofList m), hkeys]
  simp only [hget]
  exact filterMap_get?_keys h

/-- Members are inserted one by one, or put in order before. -/
theorem insertAll_ofList (h : (keys m).Nodup) (other : List (κ × α)) :
    insertAll m (ofList other) = insertAll m other := by
  have hkeys : keys (insertAll m (ofList other)) = keys (insertAll m other) := by
    rw [keys_insertAll, keys_insertAll, keys_ofList, ← eraseDups_filter,
      eraseDups_of_nodup (nodup_eraseDups _)]
  have hget (k : κ) : get? k (insertAll m (ofList other)) = get? k (insertAll m other) := by
    rw [get?_insertAll, get?_insertAll, get?_reverse_of_nodup (nodup_keys_ofList other),
      get?_ofList]
  have hnodup : (keys (insertAll m (ofList other))).Nodup := nodup_keys_insertAll h
  rw [← filterMap_get?_keys hnodup, hkeys]
  simp only [hget]
  exact filterMap_get?_keys (nodup_keys_insertAll h)

theorem insertAll_append (m l l' : List (κ × α)) :
    insertAll m (l ++ l') = insertAll (insertAll m l) l' :=
  List.foldl_append

theorem insertAll_assoc {l : List (κ × α)} (hl : (keys l).Nodup) (hm : (keys m).Nodup)
    (other : List (κ × α)) :
    insertAll (insertAll l m) other = insertAll l (insertAll m other) := by
  have hjoined : insertAll m other = ofList (m ++ other) := by
    rw [ofList, insertAll_append, ← ofList, ofList_of_nodup hm]
  rw [hjoined, insertAll_ofList hl, insertAll_append]

/-! ## Removal -/

theorem keys_erase (k : κ) (m : List (κ × α)) : keys (erase k m) = (keys m).erase k := by
  induction m with
  | nil => rfl
  | cons p m ih =>
    obtain ⟨j, w⟩ := p
    change keys (if j = k then m else (j, w) :: erase k m) = (j :: keys m).erase k
    rw [List.erase_cons]
    by_cases hj : j = k
    · simp [hj]
    · rw [if_neg hj, if_neg (by simpa using hj), ← ih]
      rfl

/-- With distinct keys nothing is left under a key that is removed. -/
theorem get?_erase (hm : (keys m).Nodup) (k j : κ) :
    get? j (erase k m) = if k = j then none else get? j m := by
  induction m with
  | nil => simp [erase]
  | cons p m ih =>
    obtain ⟨l, w⟩ := p
    obtain ⟨hl, hm⟩ := List.nodup_cons.mp hm
    rw [erase]
    by_cases hlk : l = k
    · subst hlk
      rw [if_pos rfl, get?]
      split
      · rename_i hlj
        exact get?_eq_none_iff.mpr (hlj ▸ hl)
      · rfl
    · rw [if_neg hlk, get?, get?, ih hm]
      by_cases hlj : l = j
      · rw [if_pos hlj, if_neg fun hkj ↦ hlk (hlj.trans hkj.symm), if_pos hlj]
      · rw [if_neg hlj, if_neg hlj]

end FrontendSync.Ordered
