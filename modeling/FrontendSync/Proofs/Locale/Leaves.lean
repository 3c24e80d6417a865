import FrontendSync.Locale.Flatten
import FrontendSync.Locale.Keys
import FrontendSync.Locale.Syntax.Adapter
import FrontendSync.Proofs.Ordered

/-!
# Leaves of locale data

The leaves of a tree are its scalars and its empty containers.  Short keys and joined keys take a
leaf away exactly where two members or leaves come to have the same key; an adapter that replaces
each text by one text takes none.
-/

namespace FrontendSync

namespace Tree

mutual

/-- The number of scalars and empty containers at and below a tree. -/
def leafCount : Tree → Nat
  | map [] => 1
  | list [] => 1
  | map (m :: ms) => memberLeafCount (m :: ms)
  | list (t :: ts) => itemLeafCount (t :: ts)
  | _ => 1

def memberLeafCount : Members → Nat
  | [] => 0
  | (_, t) :: ms => leafCount t + memberLeafCount ms

def itemLeafCount : List Tree → Nat
  | [] => 0
  | t :: ts => leafCount t + itemLeafCount ts

end

mutual

theorem leafCount_pos (t : Tree) : 0 < leafCount t := by
  match t with
  | map [] | list [] | null | bool _ | int _ | float _ | text _ => simp [leafCount]
  | map (m :: ms) =>
    have := leafCount_pos m.2
    rw [leafCount, memberLeafCount]
    omega
  | list (t :: ts) =>
    have := leafCount_pos t
    rw [leafCount, itemLeafCount]
    omega

end

theorem leafCount_map (ms : Members) : leafCount (map ms) = max 1 (memberLeafCount ms) := by
  cases ms with
  | nil => rfl
  | cons m ms =>
    have := leafCount_pos m.2
    rw [leafCount, memberLeafCount]
    omega

theorem memberLeafCount_eq_zero_iff {ms : Members} : memberLeafCount ms = 0 ↔ ms = [] := by
  cases ms with
  | nil => simp [memberLeafCount]
  | cons m ms =>
    have := leafCount_pos m.2
    simp [memberLeafCount]
    omega

@[simp] theorem memberLeafCount_append (ms more : Members) :
    memberLeafCount (ms ++ more) = memberLeafCount ms + memberLeafCount more := by
  induction ms with
  | nil => simp [memberLeafCount]
  | cons m ms ih => simp [memberLeafCount, ih, Nat.add_assoc]

/-! ## Leaves by their joined keys -/

mutual

theorem length_leaves (path : Option String) (t : Tree) :
    (leaves path t).length = leafCount t := by
  match t with
  | map [] | list [] | null | bool _ | int _ | float _ | text _ => rfl
  | map (m :: ms) => rw [leaves, leafCount, length_memberLeaves]
  | list (t :: ts) => rw [leaves, leafCount, length_itemLeaves]

theorem length_memberLeaves (path : Option String) (ms : Members) :
    (memberLeaves path ms).length = memberLeafCount ms := by
  match ms with
  | [] => rfl
  | (k, t) :: ms =>
    rw [memberLeaves, memberLeafCount, List.length_append, length_leaves, length_memberLeaves]

theorem length_itemLeaves (path : Option String) (n : Nat) (ts : List Tree) :
    (itemLeaves path n ts).length = itemLeafCount ts := by
  match ts with
  | [] => rfl
  | t :: ts =>
    rw [itemLeaves, itemLeafCount, List.length_append, length_leaves, length_itemLeaves]

end

mutual

theorem leafCount_of_mem_leaves {path : Option String} {t : Tree} {m : String × Tree}
    (h : m ∈ leaves path t) : leafCount m.2 = 1 := by
  match t with
  | map [] | list [] | null | bool _ | int _ | float _ | text _ =>
    rw [List.mem_singleton.mp h]
    rfl
  | map (n :: ms) => exact leafCount_of_mem_memberLeaves h
  | list (t :: ts) => exact leafCount_of_mem_itemLeaves h

theorem leafCount_of_mem_memberLeaves {path : Option String} {ms : Members} {m : String × Tree}
    (h : m ∈ memberLeaves path ms) : leafCount m.2 = 1 := by
  match ms with
  | [] => simp [memberLeaves] at h
  | (k, t) :: ms =>
    rw [memberLeaves] at h
    rcases List.mem_append.mp h with h | h
    · exact leafCount_of_mem_leaves h
    · exact leafCount_of_mem_memberLeaves h

theorem leafCount_of_mem_itemLeaves {path : Option String} {n : Nat} {ts : List Tree}
    {m : String × Tree} (h : m ∈ itemLeaves path n ts) : leafCount m.2 = 1 := by
  match ts with
  | [] => simp [itemLeaves] at h
  | t :: ts =>
    rw [itemLeaves] at h
    rcases List.mem_append.mp h with h | h
    · exact leafCount_of_mem_leaves h
    · exact leafCount_of_mem_itemLeaves h

end

theorem memberLeafCount_of_forall {ms : Members} (h : ∀ m ∈ ms, leafCount m.2 = 1) :
    memberLeafCount ms = ms.length := by
  induction ms with
  | nil => rfl
  | cons m ms ih =>
    obtain ⟨hm, hms⟩ := List.forall_mem_cons.mp h
    rw [memberLeafCount, hm, ih hms, List.length_cons, Nat.add_comm]

theorem memberLeafCount_memberLeaves (path : Option String) (ms : Members) :
    memberLeafCount (memberLeaves path ms) = memberLeafCount ms := by
  rw [memberLeafCount_of_forall fun _ ↦ leafCount_of_mem_memberLeaves, length_memberLeaves]

/-! ## Insertion

A member that takes the place of another one takes its leaves away, and there is at least one. -/

theorem memberLeafCount_insert_of_mem {k : String} {ms : Members} (h : k ∈ Ordered.keys ms)
    (t : Tree) : memberLeafCount (Ordered.insert k t ms) < memberLeafCount ms + leafCount t := by
  induction ms with
  | nil => simp [Ordered.keys] at h
  | cons m ms ih =>
    obtain ⟨j, u⟩ := m
    rw [Ordered.insert]
    split
    · have := leafCount_pos u
      rw [memberLeafCount, memberLeafCount]
      omega
    · rename_i hj
      have := ih ((List.mem_cons.mp h).resolve_left (Ne.symm hj))
      rw [memberLeafCount, memberLeafCount]
      omega

theorem memberLeafCount_insertAll {ms : Members} (hms : (Ordered.keys ms).Nodup)
    (other : Members) :
    memberLeafCount (Ordered.insertAll ms other) ≤ memberLeafCount ms + memberLeafCount other ∧
      (memberLeafCount (Ordered.insertAll ms other) = memberLeafCount ms + memberLeafCount other
        ↔ (Ordered.keys ms ++ Ordered.keys other).Nodup) := by
  induction other generalizing ms with
  | nil => simp [Ordered.insertAll, Ordered.keys, memberLeafCount] at hms ⊢; exact hms
  | cons m other ih =>
    obtain ⟨k, t⟩ := m
    obtain ⟨hle, hiff⟩ := ih (Ordered.nodup_keys_insert (k := k) (v := t) hms)
    change memberLeafCount (Ordered.insertAll (Ordered.insert k t ms) other) ≤ _ ∧
      (memberLeafCount (Ordered.insertAll (Ordered.insert k t ms) other) = _ ↔ _)
    by_cases hk : k ∈ Ordered.keys ms
    · have hlost := memberLeafCount_insert_of_mem hk t
      rw [memberLeafCount]
      refine ⟨by omega, iff_of_false (by omega) fun hnodup ↦ ?_⟩
      exact (List.nodup_append.mp hnodup).2.2 k hk k List.mem_cons_self rfl
    · rw [Ordered.insert_of_notMem hk] at hle hiff ⊢
      simp only [memberLeafCount_append, memberLeafCount, Ordered.keys, List.map_append,
        List.map_cons, List.map_nil, List.append_assoc, List.singleton_append, Nat.add_assoc,
        Nat.zero_add] at hle hiff ⊢
      exact ⟨hle, hiff⟩

/-- Members put in order keep their leaves exactly if their keys are distinct. -/
theorem memberLeafCount_ofList (ms : Members) :
    memberLeafCount (Ordered.ofList ms) ≤ memberLeafCount ms ∧
      (memberLeafCount (Ordered.ofList ms) = memberLeafCount ms ↔ (Ordered.keys ms).Nodup) := by
  have hnil : (Ordered.keys ([] : Members)).Nodup := List.nodup_nil
  simpa [Ordered.ofList, Ordered.keys, memberLeafCount] using memberLeafCount_insertAll hnil ms

/-! ## Short keys -/

mutual

/-- Under `f` the members of each map have keys of their own. -/
def KeepsApart (f : String → String) : Tree → Prop
  | map ms => ((Ordered.keys ms).map f).Nodup ∧ MembersKeepApart f ms
  | list ts => ItemsKeepApart f ts
  | _ => True

def MembersKeepApart (f : String → String) : Members → Prop
  | [] => True
  | (_, t) :: ms => KeepsApart f t ∧ MembersKeepApart f ms

def ItemsKeepApart (f : String → String) : List Tree → Prop
  | [] => True
  | t :: ts => KeepsApart f t ∧ ItemsKeepApart f ts

end

theorem membersKeepApart_iff {f : String → String} {ms : Members} :
    MembersKeepApart f ms ↔ ∀ m ∈ ms, KeepsApart f m.2 := by
  induction ms with
  | nil => simp [MembersKeepApart]
  | cons m ms ih => simp [MembersKeepApart, ih]

theorem keys_shortMembers (ms : Members) :
    Ordered.keys (shortMembers ms) = (Ordered.keys ms).map Php.Name.short := by
  induction ms with
  | nil => rfl
  | cons m ms ih =>
    rw [shortMembers, Ordered.keys, List.map_cons, ← Ordered.keys, ih]
    rfl

mutual

theorem leafCount_shortKeys (t : Tree) : leafCount (shortKeys t) ≤ leafCount t ∧
    (leafCount (shortKeys t) = leafCount t ↔ KeepsApart Php.Name.short t) := by
  match t with
  | map [] => simp [shortKeys, shortMembers, Ordered.ofList, Ordered.insertAll, KeepsApart,
      MembersKeepApart, Ordered.keys]
  | map (m :: ms) =>
    obtain ⟨hle, hiff⟩ := memberLeafCount_shortMembers (m :: ms)
    obtain ⟨hle', hiff'⟩ := memberLeafCount_ofList (shortMembers (m :: ms))
    have hpos : memberLeafCount (Ordered.ofList (shortMembers (m :: ms))) ≠ 0 := fun hzero ↦ by
      simpa [shortMembers] using
        (Ordered.insertAll_eq_nil_iff.mp (memberLeafCount_eq_zero_iff.mp hzero)).2
    rw [shortKeys, leafCount_map, leafCount, KeepsApart, ← keys_shortMembers, ← hiff, ← hiff']
    omega
  | list [] => simp [shortKeys, shortItems, KeepsApart, ItemsKeepApart]
  | list (t :: ts) =>
    obtain ⟨hle, hiff⟩ := itemLeafCount_shortItems (t :: ts)
    rw [shortKeys, shortItems, leafCount, leafCount, ← shortItems, KeepsApart, ← hiff]
    exact ⟨hle, Iff.rfl⟩
  | null | bool _ | int _ | float _ | text _ => simp [shortKeys, KeepsApart]

theorem memberLeafCount_shortMembers (ms : Members) :
    memberLeafCount (shortMembers ms) ≤ memberLeafCount ms ∧
      (memberLeafCount (shortMembers ms) = memberLeafCount ms
        ↔ MembersKeepApart Php.Name.short ms) := by
  match ms with
  | [] => simp [shortMembers, MembersKeepApart]
  | (k, t) :: ms =>
    obtain ⟨hle, hiff⟩ := leafCount_shortKeys t
    obtain ⟨hle', hiff'⟩ := memberLeafCount_shortMembers ms
    rw [shortMembers, memberLeafCount, memberLeafCount, MembersKeepApart, ← hiff, ← hiff']
    omega

theorem itemLeafCount_shortItems (ts : List Tree) :
    itemLeafCount (shortItems ts) ≤ itemLeafCount ts ∧
      (itemLeafCount (shortItems ts) = itemLeafCount ts ↔ ItemsKeepApart Php.Name.short ts) := by
  match ts with
  | [] => simp [shortItems, ItemsKeepApart]
  | t :: ts =>
    obtain ⟨hle, hiff⟩ := leafCount_shortKeys t
    obtain ⟨hle', hiff'⟩ := itemLeafCount_shortItems ts
    rw [shortItems, itemLeafCount, itemLeafCount, ItemsKeepApart, ← hiff, ← hiff']
    omega

end

end Tree

end FrontendSync
