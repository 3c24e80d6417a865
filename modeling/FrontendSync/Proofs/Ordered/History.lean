import FrontendSync.Proofs.Ordered

/-!
# Histories of members

Members that are changed step by step hold what was inserted last under each key, and list the
keys in the order in which they were inserted first, both since the last removal of the key.
Merging is insertion of one member after the other, so it is associative.
-/

namespace FrontendSync.Ordered

variable {κ α : Type}

/-- What happens to a key. -/
inductive Event (κ α : Type) where
  | put (k : κ) (v : α)
  | drop (k : κ)

def Event.key : Event κ α → κ
  | put k _ | drop k => k

/-- A history that goes on is divided in front of its last event or at it. -/
theorem concat_eq_append_cons_iff {β : Type} {h before after : List β} {e x : β} :
    h ++ [e] = before ++ x :: after ↔
      (before = h ∧ x = e ∧ after = []) ∨ ∃ mid, after = mid ++ [e] ∧ h = before ++ x :: mid := by
  constructor
  · intro heq
    rcases List.eq_nil_or_concat' after with rfl | ⟨mid, last, rfl⟩
    · obtain ⟨hbefore, hx⟩ := List.append_inj' heq rfl
      exact .inl ⟨hbefore.symm, (List.singleton_inj.mp hx).symm, rfl⟩
    · rw [← List.cons_append, ← List.append_assoc] at heq
      obtain ⟨hmid, he⟩ := List.append_inj' heq rfl
      exact .inr ⟨mid, by rw [List.singleton_inj.mp he], hmid⟩
  · rintro (⟨rfl, rfl, rfl⟩ | ⟨mid, rfl, rfl⟩) <;> simp

section History

variable {h : List (Event κ α)} {e : Event κ α} {k : κ} {v : α} {i j : Nat}

/-- The last event of a key is the insertion of a value. -/
def Holds (h : List (Event κ α)) (k : κ) (v : α) : Prop :=
  ∃ before after, h = before ++ .put k v :: after ∧ ∀ e ∈ after, e.key ≠ k

/-- Every insertion under a key was followed by a removal. -/
def IsGone (h : List (Event κ α)) (k : κ) : Prop :=
  ∀ before v after, h = before ++ .put k v :: after → .drop k ∈ after

/-- The first insertion under a key since its last removal is the event with that number. -/
def Arrives (h : List (Event κ α)) (k : κ) (i : Nat) : Prop :=
  ∃ before v after, h = before ++ .put k v :: after ∧ before.length = i ∧
    IsGone before k ∧ .drop k ∉ after

/-- One key arrives in front of another one. -/
def ArrivesBefore (h : List (Event κ α)) (k l : κ) : Prop :=
  ∃ i j, Arrives h k i ∧ Arrives h l j ∧ i < j

theorem holds_concat_self_iff (he : e.key = k) : Holds (h ++ [e]) k v ↔ e = .put k v := by
  constructor
  · rintro ⟨before, after, heq, hafter⟩
    rcases concat_eq_append_cons_iff.mp heq with ⟨-, he', -⟩ | ⟨mid, rfl, -⟩
    · exact he'.symm
    · exact absurd he (hafter e (by simp))
  · rintro rfl
    exact ⟨h, [], rfl, by simp⟩

theorem holds_concat_iff_of_ne (he : e.key ≠ k) : Holds (h ++ [e]) k v ↔ Holds h k v := by
  constructor
  · rintro ⟨before, after, heq, hafter⟩
    rcases concat_eq_append_cons_iff.mp heq with ⟨-, rfl, -⟩ | ⟨mid, rfl, hmid⟩
    · exact absurd rfl he
    · exact ⟨before, mid, hmid, fun x hx ↦ hafter x (List.mem_append_left _ hx)⟩
  · rintro ⟨before, after, rfl, hafter⟩
    refine ⟨before, after ++ [e], by simp, ?_⟩
    intro x hx
    rcases List.mem_append.mp hx with hx | hx
    · exact hafter x hx
    · rwa [List.mem_singleton.mp hx]

/-- A key is gone exactly if it holds no value. -/
theorem isGone_iff : IsGone h k ↔ ∀ v, ¬ Holds h k v := by
  constructor
  · rintro hgone v ⟨before, after, heq, hafter⟩
    exact hafter _ (hgone before v after heq) rfl
  · intro hnone
    induction h using List.reverseRecOn with
    | nil => exact fun before v after heq ↦ by simp at heq
    | append_singleton h e ih =>
      intro before v after heq
      rcases concat_eq_append_cons_iff.mp heq with ⟨-, rfl, -⟩ | ⟨mid, rfl, hmid⟩
      · exact absurd ((holds_concat_self_iff rfl).mpr rfl) (hnone v)
      · by_cases he : e.key = k
        · cases e with
          | put k' w =>
            obtain rfl : k' = k := he
            exact absurd ((holds_concat_self_iff rfl).mpr rfl) (hnone w)
          | drop k' =>
            obtain rfl : k' = k := he
            simp
        · have hgone := ih fun w hw ↦ hnone w ((holds_concat_iff_of_ne he).mpr hw)
          exact List.mem_append_left _ (hgone before v mid hmid)

theorem Arrives.lt_length (hk : Arrives h k i) : i < h.length := by
  obtain ⟨before, v, after, rfl, rfl, -⟩ := hk
  simp

theorem Arrives.concat (hk : Arrives h k i) (he : e ≠ .drop k) : Arrives (h ++ [e]) k i := by
  obtain ⟨before, v, after, rfl, rfl, hgone, hafter⟩ := hk
  refine ⟨before, v, after ++ [e], by simp, rfl, hgone, ?_⟩
  simpa [hafter] using he.symm

theorem IsGone.arrives (hk : IsGone h k) (v : α) : Arrives (h ++ [.put k v]) k h.length :=
  ⟨h, v, [], rfl, rfl, hk, by simp⟩

theorem Arrives.not_isGone (hk : Arrives h k i) : ¬ IsGone h k := by
  obtain ⟨before, v, after, heq, -, -, hafter⟩ := hk
  exact fun hgone ↦ hafter (hgone before v after heq)

/-- A key arrives only once. -/
theorem Arrives.unique (hi : Arrives h k i) (hj : Arrives h k j) : i = j := by
  have hle {i j : Nat} (hi : Arrives h k i) (hj : Arrives h k j) : j ≤ i := by
    obtain ⟨before, v, after, heq, rfl, -, hafter⟩ := hi
    obtain ⟨before', v', after', heq', rfl, hgone, -⟩ := hj
    by_contra hlt
    -- the earlier insertion was followed by a removal in front of the later one
    obtain ⟨mid, rfl, hmid⟩ | ⟨mid, rfl, -⟩ := List.append_eq_append_iff.mp (heq.symm.trans heq')
    · cases mid with
      | nil => simp at hlt
      | cons x mid =>
        obtain ⟨rfl, rfl⟩ := List.cons.inj hmid
        exact hafter (List.mem_append_left _ (hgone before v mid rfl))
    · simp at hlt
  exact Nat.le_antisymm (hle hj hi) (hle hi hj)

end History

/-! ## Members that reflect a history -/

variable [DecidableEq κ] {h : List (Event κ α)} {m : List (κ × α)}

/-- What members say about their history. -/
structure Reflects (h : List (Event κ α)) (m : List (κ × α)) : Prop where
  nodup : (keys m).Nodup
  value : ∀ k v, get? k m = some v ↔ Holds h k v
  arrival : ∀ k ∈ keys m, ∃ i, Arrives h k i
  order : (keys m).Pairwise (ArrivesBefore h)

namespace Reflects

theorem nil : Reflects ([] : List (Event κ α)) [] := by
  refine ⟨List.nodup_nil, fun k v ↦ ?_, by simp [keys], .nil⟩
  simp [Holds]

theorem isGone_iff (hm : Reflects h m) {k : κ} : IsGone h k ↔ k ∉ keys m := by
  rw [Ordered.isGone_iff, ← get?_eq_none_iff, Option.eq_none_iff_forall_ne_some]
  exact forall_congr' fun v ↦ not_congr (hm.value k v).symm

/-- The keys are those that have arrived. -/
theorem mem_keys_iff (hm : Reflects h m) {k : κ} : k ∈ keys m ↔ ∃! i, Arrives h k i := by
  constructor
  · intro hk
    obtain ⟨i, hi⟩ := hm.arrival k hk
    exact ⟨i, hi, fun j hj ↦ hj.unique hi⟩
  · rintro ⟨i, hi, -⟩
    by_contra hk
    exact hi.not_isGone (hm.isGone_iff.mpr hk)

theorem insert (hm : Reflects h m) (k : κ) (v : α) :
    Reflects (h ++ [.put k v]) (Ordered.insert k v m) := by
  have hvalue : ∀ l w, get? l (Ordered.insert k v m) = some w ↔ Holds (h ++ [.put k v]) l w := by
    intro l w
    rw [get?_insert]
    split
    · rename_i hkl
      subst hkl
      have hself : Holds (h ++ [.put k v]) k w ↔ Event.put k v = .put k w :=
        holds_concat_self_iff rfl
      simp [hself]
    · rename_i hkl
      rw [holds_concat_iff_of_ne (e := .put k v) hkl, hm.value]
  have hold {l : κ} {i : Nat} (hl : Arrives h l i) : Arrives (h ++ [.put k v]) l i :=
    hl.concat (by simp)
  have harrival : ∀ l ∈ keys m, ∃ i, Arrives (h ++ [.put k v]) l i := fun l hl ↦
    (hm.arrival l hl).imp fun _ ↦ hold
  have horder : (keys m).Pairwise (ArrivesBefore (h ++ [.put k v])) := by
    refine hm.order.imp ?_
    rintro l l' ⟨i, j, hi, hj, hij⟩
    exact ⟨i, j, hold hi, hold hj, hij⟩
  by_cases hk : k ∈ keys m
  · -- the key keeps its place
    refine ⟨nodup_keys_insert hm.nodup, hvalue, ?_, ?_⟩
    all_goals rw [keys_insert_of_mem hk]
    · exact harrival
    · exact horder
  · -- the key arrives now, behind all others
    have hnew := (hm.isGone_iff.mpr hk).arrives v
    have hkeys : keys (Ordered.insert k v m) = keys m ++ [k] := by
      rw [insert_of_notMem hk, keys, List.map_append]
      rfl
    refine ⟨nodup_keys_insert hm.nodup, hvalue, ?_, ?_⟩
    all_goals rw [hkeys]
    · intro l hl
      rcases List.mem_append.mp hl with hl | hl
      · exact harrival l hl
      · rw [List.mem_singleton.mp hl]
        exact ⟨_, hnew⟩
    · refine List.pairwise_append.mpr ⟨horder, List.pairwise_singleton _ _, ?_⟩
      intro l hl l' hl'
      rw [List.mem_singleton.mp hl']
      obtain ⟨i, hi⟩ := hm.arrival l hl
      exact ⟨i, _, hold hi, hnew, hi.lt_length⟩

theorem insertAll (hm : Reflects h m) (other : List (κ × α)) :
    Reflects (h ++ other.map fun p ↦ .put p.1 p.2) (Ordered.insertAll m other) := by
  induction other generalizing h m with
  | nil => simpa [Ordered.insertAll] using hm
  | cons p other ih =>
    have hrest := ih (hm.insert p.1 p.2)
    rw [List.append_assoc] at hrest
    exact hrest

theorem erase (hm : Reflects h m) (k : κ) : Reflects (h ++ [.drop k]) (Ordered.erase k m) := by
  have hkeys := keys_erase k m
  have hmem {l : κ} (hl : l ∈ (keys m).erase k) : l ∈ keys m ∧ k ≠ l := by
    obtain ⟨hne, hl⟩ := (List.Nodup.mem_erase_iff hm.nodup).mp hl
    exact ⟨hl, hne.symm⟩
  have hold {l : κ} {i : Nat} (hkl : k ≠ l) (hl : Arrives h l i) : Arrives (h ++ [.drop k]) l i :=
    hl.concat fun heq ↦ hkl (Event.drop.inj heq)
  refine ⟨?_, fun l w ↦ ?_, ?_, ?_⟩
  · rw [hkeys]
    exact hm.nodup.erase k
  · rw [get?_erase hm.nodup]
    split
    · rename_i hkl
      simp [holds_concat_self_iff (e := .drop k) hkl]
    · rename_i hkl
      rw [holds_concat_iff_of_ne (e := .drop k) hkl, hm.value]
  · rw [hkeys]
    intro l hl
    obtain ⟨hl, hkl⟩ := hmem hl
    exact (hm.arrival l hl).imp fun _ ↦ hold hkl
  · rw [hkeys]
    refine (hm.order.sublist List.erase_sublist).imp_of_mem ?_
    rintro l l' hl hl' ⟨i, j, hi, hj, hij⟩
    exact ⟨i, j, hold (hmem hl).2 hi, hold (hmem hl').2 hj, hij⟩

end Reflects

/-! ## Edits -/

/-- An operation on members. -/
inductive Edit (κ α : Type) where
  | insert (k : κ) (v : α)
  | remove (k : κ)
  | extend (other : List (κ × α))

namespace Edit

/-- The value that an operation gives back, and the members afterwards. -/
def apply (m : List (κ × α)) : Edit κ α → Option α × List (κ × α)
  | insert k v => replace k v m
  | remove k => Ordered.remove k m
  | extend other => (none, insertAll m other)

/-- The members after operations in order. -/
def run (m : List (κ × α)) (edits : List (Edit κ α)) : List (κ × α) :=
  edits.foldl (fun m e ↦ (e.apply m).2) m

/-- What an operation does to the keys. -/
def events : Edit κ α → List (Event κ α)
  | insert k v => [.put k v]
  | remove k => [.drop k]
  | extend other => other.map fun p ↦ .put p.1 p.2

theorem reflects_apply (hm : Reflects h m) (e : Edit κ α) :
    Reflects (h ++ e.events) (e.apply m).2 := by
  cases e with
  | insert k v => simpa [apply, events] using hm.insert k v
  | remove k => simpa [apply, events] using hm.erase k
  | extend other => exact hm.insertAll other

theorem reflects_run (hm : Reflects h m) (edits : List (Edit κ α)) :
    Reflects (h ++ edits.flatMap events) (run m edits) := by
  induction edits generalizing h m with
  | nil => simpa [run] using hm
  | cons e edits ih =>
    rw [List.flatMap_cons, ← List.append_assoc]
    exact ih (reflects_apply hm e)

theorem run_append (m : List (κ × α)) (edits more : List (Edit κ α)) :
    run m (edits ++ more) = run (run m edits) more :=
  List.foldl_append

theorem run_map_insert (m other : List (κ × α)) :
    run m (other.map fun p ↦ insert p.1 p.2) = insertAll m other := by
  induction other generalizing m with
  | nil => rfl
  | cons p other ih =>
    have hstep : ((insert p.1 p.2).apply m).2 = Ordered.insert p.1 p.2 m := by
      rw [apply, replace_eq]
    rw [List.map_cons, run, List.foldl_cons, hstep]
    exact ih (Ordered.insert p.1 p.2 m)

end Edit

/-- The events of members that are put in order and then go through operations. -/
def history (members : List (κ × α)) (edits : List (Edit κ α)) : List (Event κ α) :=
  members.map (fun p ↦ .put p.1 p.2) ++ edits.flatMap Edit.events

/-- Whatever operations members go through, their keys are distinct, are those that have arrived,
and stand in the order of their arrival; each holds the value that it was given last; and an
operation that replaces or removes a value gives it back.  To extend members is to insert one
member after the other, and extending is associative. -/
theorem reflects_run_ofList (members : List (κ × α)) (edits : List (Edit κ α)) :
    Reflects (history members edits) (Edit.run (ofList members) edits) ∧
      (∀ k, contains k (Edit.run (ofList members) edits) = true ↔
        ∃ v, Holds (history members edits) k v) ∧
      (∀ k, k ∈ keys (Edit.run (ofList members) edits) ↔
        ∃! i, Arrives (history members edits) k i) ∧
      (∀ k v, ((Edit.insert k v).apply (Edit.run (ofList members) edits)).1
        = get? k (Edit.run (ofList members) edits)) ∧
      (∀ k, ((Edit.remove k).apply (Edit.run (ofList members) edits)).1
        = get? k (Edit.run (ofList members) edits)) ∧
      (∀ other, insertAll (Edit.run (ofList members) edits) other
        = Edit.run (ofList members) (edits ++ other.map fun p ↦ .insert p.1 p.2)) ∧
      ∀ members' edits' other,
        insertAll (insertAll (Edit.run (ofList members) edits)
            (Edit.run (ofList members') edits')) other
          = insertAll (Edit.run (ofList members) edits)
            (insertAll (Edit.run (ofList members') edits') other) := by
  have hreflects (members : List (κ × α)) (edits : List (Edit κ α)) :
      Reflects (history members edits) (Edit.run (ofList members) edits) :=
    Edit.reflects_run (Reflects.nil.insertAll members) edits
  have hm := hreflects members edits
  refine ⟨hm, fun k ↦ ?_, fun k ↦ hm.mem_keys_iff, fun k v ↦ ?_, fun k ↦ ?_, fun other ↦ ?_,
    fun members' edits' other ↦ ?_⟩
  · rw [contains, Option.isSome_iff_exists]
    exact exists_congr (hm.value k)
  · rw [Edit.apply, replace_eq]
  · rw [Edit.apply, remove_eq]
  · rw [Edit.run_append, Edit.run_map_insert]
  · exact insertAll_assoc hm.nodup (hreflects members' edits').nodup other

/-- A key that is removed and inserted again comes last; one that is replaced stays. -/
example : Edit.run (ofList [("a", 1), ("b", 2), ("a", 3)])
    [.insert "b" 4, .remove "a", .extend [("c", 5), ("b", 6)], .insert "a" 7]
      = [("b", 6), ("c", 5), ("a", 7)] := by
  decide

end FrontendSync.Ordered
