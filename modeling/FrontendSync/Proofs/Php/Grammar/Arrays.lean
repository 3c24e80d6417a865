import FrontendSync.Proofs.Php.Grammar

/-!
# Entries entered one by one

Entering the entries of an array one by one, with the index of the next entry kept up to date,
gives what the grammar says of them, as long as no key is the last integer of 64 bits.
-/

namespace FrontendSync.Php

open Expression (nextIndex)

/-- An entry is entered into what there is, under its own key or the next index. -/
def enter (s : List (Key × Value) × Int) (e : WrittenEntry) : List (Key × Value) × Int :=
  (Ordered.insert (e.1.getD (.int s.2)) e.2 s.1, nextIndex s.2 (e.1.getD (.int s.2)))

/-- No integer among the keys is the last one of 64 bits, or lies beyond it. -/
def HasNoLastKey (es : List (Key × Value)) : Prop :=
  ∀ n, Key.int n ∈ Ordered.keys es → n < Decimal.maxInt

theorem hasNoLastKey_nil : HasNoLastKey [] := fun _ h ↦ absurd h List.not_mem_nil

def Key.isBelowLast : Key → Bool
  | .int n => n < Decimal.maxInt
  | .string _ => true

instance (es : List (Key × Value)) : Decidable (HasNoLastKey es) :=
  decidable_of_iff (∀ k ∈ Ordered.keys es, k.isBelowLast = true) <| by
    refine ⟨fun h n hn ↦ of_decide_eq_true (h (.int n) hn), fun h k hk ↦ ?_⟩
    cases k with
    | int n => exact decide_eq_true (h n hk)
    | string s => rfl

/-! ## Free indices -/

theorem nextIndex_string (index : Int) (s : String) : nextIndex index (.string s) = index := rfl

theorem nextIndex_int_eq_max {index n : Int} (hindex : 0 ≤ index) (hn : n < Decimal.maxInt) :
    nextIndex index (.int n) = max index (n + 1) := by
  by_cases h : index ≤ n
  · have hlow : Decimal.minInt ≤ n + 1 := by
      rw [Decimal.minInt]
      omega
    have hwrap := Decimal.wrap_eq_self (Decimal.fits_iff.mpr ⟨hlow, hn⟩)
    rw [nextIndex, if_pos h, hwrap]
    omega
  · rw [nextIndex, if_neg h]
    omega

theorem keys_append_singleton (es : List (Key × Value)) (k : Key) (v : Value) :
    Ordered.keys (es ++ [(k, v)]) = Ordered.keys es ++ [k] := by
  simp [Ordered.keys]

theorem isLeast_freeIndices_nil : IsLeast (freeIndices []) 0 :=
  ⟨⟨Int.le_refl 0, fun _ h ↦ absurd h List.not_mem_nil⟩, fun _ h ↦ h.1⟩

theorem isLeast_freeIndices_int {es : List (Key × Value)} {index : Int}
    (h : IsLeast (freeIndices es) index) (n : Int) (v : Value) :
    IsLeast (freeIndices (es ++ [(.int n, v)])) (max index (n + 1)) := by
  obtain ⟨⟨hzero, habove⟩, hleast⟩ := h
  refine ⟨⟨by omega, fun m hm ↦ ?_⟩, fun i hi ↦ ?_⟩
  · rw [keys_append_singleton, List.mem_append, List.mem_singleton, Key.int.injEq] at hm
    obtain hm | rfl := hm
    · have hlt := habove m hm
      omega
    · omega
  · obtain ⟨hi, hfree⟩ := hi
    simp only [keys_append_singleton, List.mem_append, List.mem_singleton, Key.int.injEq] at hfree
    have hindex := hleast ⟨hi, fun m hm ↦ hfree m (.inl hm)⟩
    have hlast := hfree n (.inr rfl)
    omega

theorem freeIndices_string (es : List (Key × Value)) (s : String) (v : Value) :
    freeIndices (es ++ [(.string s, v)]) = freeIndices es := by
  simp [freeIndices, keys_append_singleton]

theorem isLeast_nextIndex {es : List (Key × Value)} {index : Int}
    (h : IsLeast (freeIndices es) index) {k : Key} (hk : ∀ n, k = .int n → n < Decimal.maxInt)
    (v : Value) : IsLeast (freeIndices (es ++ [(k, v)])) (nextIndex index k) := by
  cases k with
  | int n =>
    rw [nextIndex_int_eq_max h.1.1 (hk n rfl)]
    exact isLeast_freeIndices_int h n v
  | string s => rwa [nextIndex_string, freeIndices_string]

theorem exists_isLeast_freeIndices (es : List (Key × Value)) :
    ∃ n, IsLeast (freeIndices es) n := by
  induction es using List.reverseRecOn with
  | nil => exact ⟨0, isLeast_freeIndices_nil⟩
  | append_singleton es e ih =>
    obtain ⟨n, hn⟩ := ih
    obtain ⟨k, v⟩ := e
    cases k with
    | int m => exact ⟨_, isLeast_freeIndices_int hn m v⟩
    | string s => exact ⟨n, by rwa [freeIndices_string]⟩

/-! ## Entries -/

/-- However entries are written, there are keys for them. -/
theorem exists_keyed (is : List WrittenEntry) : ∃ es, Keyed is es := by
  induction is using List.reverseRecOn with
  | nil => exact ⟨[], .nil⟩
  | append_singleton is e ih =>
    obtain ⟨es, hes⟩ := ih
    obtain ⟨key, v⟩ := e
    cases key with
    | some k => exact ⟨_, hes.given⟩
    | none =>
      obtain ⟨n, hn⟩ := exists_isLeast_freeIndices es
      exact ⟨_, hes.next hn⟩

theorem ofList_append_singleton (es : List (Key × Value)) (k : Key) (v : Value) :
    Ordered.ofList (es ++ [(k, v)]) = Ordered.insert k v (Ordered.ofList es) := by
  simp [Ordered.ofList, Ordered.insertAll]

theorem HasNoLastKey.of_insert {k : Key} {v : Value} {es : List (Key × Value)}
    (h : HasNoLastKey (Ordered.insert k v es)) :
    HasNoLastKey es ∧ ∀ n, k = .int n → n < Decimal.maxInt :=
  ⟨fun n hn ↦ h n (Ordered.mem_keys_insert_iff.mpr (.inl hn)),
    fun n hn ↦ h n (Ordered.mem_keys_insert_iff.mpr (.inr hn.symm))⟩

/-- Entering entries one by one puts those in order that the grammar has, and the next index is the
least one that is free. -/
theorem foldl_enter {is : List WrittenEntry} {es : List (Key × Value)} (h : Keyed is es)
    (hkeys : HasNoLastKey (is.foldl enter ([], 0)).1) :
    (is.foldl enter ([], 0)).1 = Ordered.ofList es ∧
      IsLeast (freeIndices es) (is.foldl enter ([], 0)).2 := by
  induction h with
  | nil => exact ⟨rfl, isLeast_freeIndices_nil⟩
  | @given is es k v _ ih =>
    rw [List.foldl_append] at hkeys ⊢
    obtain ⟨hbefore, hk⟩ := HasNoLastKey.of_insert hkeys
    obtain ⟨hentries, hindex⟩ := ih hbefore
    refine ⟨?_, isLeast_nextIndex hindex hk v⟩
    rw [ofList_append_singleton, ← hentries]
    rfl
  | @next is es n v _ hn ih =>
    rw [List.foldl_append] at hkeys ⊢
    obtain ⟨hbefore, hk⟩ := HasNoLastKey.of_insert hkeys
    obtain ⟨hentries, hindex⟩ := ih hbefore
    obtain rfl := hindex.unique hn
    refine ⟨?_, isLeast_nextIndex hindex hk v⟩
    rw [ofList_append_singleton, ← hentries]
    rfl

/-- An array has the entries it denotes. -/
theorem denotes_foldl_enter_iff {is : List WrittenEntry}
    (hkeys : HasNoLastKey (is.foldl enter ([], 0)).1) {entries : List (Key × Value)} :
    Denotes is entries ↔ (is.foldl enter ([], 0)).1 = entries := by
  constructor
  · rintro ⟨es, hkeyed, hkept⟩
    rw [(foldl_enter hkeyed hkeys).1, kept_iff.mp hkept]
  · rintro rfl
    obtain ⟨es, hes⟩ := exists_keyed is
    exact ⟨es, hes, kept_iff.mpr (foldl_enter hes hkeys).1⟩

end FrontendSync.Php
