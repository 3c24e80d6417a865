import FrontendSync.Proofs.Module.Quote

/-!
# Where a text is cut into tokens

A text whose strings are all closed is cut into tokens on its own in front of a character that no
word and no number goes on with.
-/

namespace FrontendSync.Module.Token

/-! ## Strings in a text -/

/-- Whether every string of a text has its closing quote; `quote` is that of the string in which
the text starts. -/
def stringsClose : Option Char → List Char → Bool
  | quote, [] => quote.isNone
  | none, c :: s => stringsClose (if isQuote c then some c else none) s
  | some _, ['\\'] => false
  | some q, '\\' :: _ :: s => stringsClose (some q) s
  | some q, c :: s => stringsClose (if c = q then none else some q) s

section Strings

variable {q c : Char} {s t : List Char}

theorem stringsClose_none_cons (h : isQuote c = false) :
    stringsClose none (c :: s) = stringsClose none s := by simp [stringsClose, h]

theorem stringsClose_some_cons (h : c ≠ '\\') :
    stringsClose (some q) (c :: s) = stringsClose (if c = q then none else some q) s := by
  rw [stringsClose]
  · exact fun hc _ ↦ h hc
  · exact fun _ _ hc _ ↦ h hc

theorem stringsClose_of_forall (h : ∀ c ∈ t, isQuote c = false) : stringsClose none t = true := by
  induction t with
  | nil => rfl
  | cons c t ih =>
    obtain ⟨hc, ht⟩ := List.forall_mem_cons.mp h
    rw [stringsClose_none_cons hc, ih ht]

/-- A text in front of which no string is open closes none either where a part without quotes is
taken off. -/
theorem stringsClose_drop {t : List Char} (h : stringsClose none t = true) {n : Nat}
    (ht : ∀ c ∈ t.take n, isQuote c = false) : stringsClose none (t.drop n) = true := by
  induction n generalizing t with
  | zero => exact h
  | succ n ih =>
    cases t with
    | nil => rfl
    | cons c t =>
      obtain ⟨hc, ht⟩ := List.forall_mem_cons.mp ht
      rw [stringsClose_none_cons hc] at h
      exact ih h ht

/-- A string that is open has its closing quote. -/
theorem mem_of_stringsClose (h : stringsClose (some q) t = true) : q ∈ t := by
  generalize hquote : some q = quote at h
  fun_induction stringsClose quote t with
  | case1 => simp [← hquote] at h
  | case2 => simp at hquote
  | case3 => simp at h
  | case4 p c s ih =>
    obtain rfl := Option.some.inj hquote
    exact List.mem_cons_of_mem _ (List.mem_cons_of_mem _ (ih rfl h))
  | case5 p c s _ _ ih =>
    obtain rfl := Option.some.inj hquote
    by_cases hc : c = q
    · simp [hc]
    · rw [if_neg hc] at ih h
      exact List.mem_cons_of_mem _ (ih rfl h)

end Strings

/-! ## Reading a string -/

theorem plain_of_isHexDigit {c : Char} (h : Decimal.isHexDigit c = true) :
    isQuote c = false ∧ c ≠ '\\' := by
  refine ⟨Bool.eq_false_iff.mpr fun hq ↦ ?_, ?_⟩
  · obtain rfl | rfl | rfl := isQuote_eq_true hq <;> exact absurd h (by decide)
  · rintro rfl
    exact absurd h (by decide)

/-- A code point is written in hexadecimal digits, which may have a plus sign. -/
theorem plain_of_codePoint? {ds : List Char} {x : Char} (h : codePoint? ds = some x) :
    ∀ c ∈ ds, isQuote c = false ∧ c ≠ '\\' := by
  unfold codePoint? at h
  dsimp only at h
  split at h
  · rename_i es
    by_cases hes : es ≠ [] ∧ es.all Decimal.isHexDigit = true
    · refine List.forall_mem_cons.mpr ⟨⟨by decide, by decide⟩, fun c hc ↦ ?_⟩
      exact plain_of_isHexDigit (List.all_eq_true.mp hes.2 c hc)
    · rw [if_neg hes] at h
      simp at h
  · by_cases hds : ds ≠ [] ∧ ds.all Decimal.isHexDigit = true
    · exact fun c hc ↦ plain_of_isHexDigit (List.all_eq_true.mp hds.2 c hc)
    · rw [if_neg hds] at h
      simp at h

/-- The four characters behind the letter of a numeric escape are read as a whole, or not at all. -/
theorem unquote_unicode (q : Char) (t : List Char) :
    unquote q ('\\' :: 'u' :: t) = match codePoint? (t.take 4) with
      | some x => push x (unquote q (t.drop 4))
      | none => push 'u' (unquote q t) := by
  match t with
  | [] => rfl
  | [a] | [a, b] | [a, b, c] =>
    rw [unquote]
    · rfl
    · simp
  | a :: b :: c :: d :: s => rw [unquote]; rfl

theorem unquote_escape {c : Char} (hc : c ≠ 'u') (q : Char) (t : List Char) :
    unquote q ('\\' :: c :: t) = push (escaped c) (unquote q t) := by
  rw [unquote]
  · exact fun _ _ _ _ _ h ↦ absurd h hc
  · exact fun h ↦ absurd h hc

theorem unquote_cons {c : Char} (hc : c ≠ '\\') (q : Char) (t : List Char) :
    unquote q (c :: t) = if c = q then ([], t) else push c (unquote q t) := by
  rw [unquote]
  · exact fun _ _ _ _ _ h ↦ absurd h hc
  · exact fun _ h ↦ absurd h hc
  · exact fun _ _ h ↦ absurd h hc
  · exact fun h ↦ absurd h hc

section Unquote

variable {q : Char} (hq : isQuote q = true)

include hq

/-- No numeric escape reaches beyond the closing quote. -/
theorem codePoint?_take_append {t : List Char} (h : q ∈ t) (s : List Char) :
    codePoint? ((t ++ s).take 4) = codePoint? (t.take 4) := by
  by_cases hlength : 4 ≤ t.length
  · rw [List.take_append_of_le_length hlength]
  · have hnone {ds : List Char} (hmem : q ∈ ds) : codePoint? ds = none := by
      refine Option.eq_none_iff_forall_ne_some.mpr fun x hx ↦ ?_
      have hplain := (plain_of_codePoint? hx q hmem).1
      simp [hq] at hplain
    have htake : t.take 4 = t := List.take_of_length_le (by omega)
    rw [List.take_append, htake, hnone h, hnone (List.mem_append_left _ h)]

/-- Behind a code point a string goes on. -/
theorem stringsClose_drop_of_codePoint? {t : List Char} {x : Char}
    (hx : codePoint? (t.take 4) = some x) (h : stringsClose (some q) t = true) :
    4 ≤ t.length ∧ stringsClose (some q) (t.drop 4) = true := by
  have hplain := plain_of_codePoint? hx
  constructor
  · refine Nat.le_of_not_lt fun hlength ↦ ?_
    rw [List.take_of_length_le (by omega)] at hplain
    have hmem := (hplain q (mem_of_stringsClose h)).1
    simp [hq] at hmem
  · clear hx
    generalize 4 = n at hplain
    induction n generalizing t with
    | zero => exact h
    | succ n ih =>
      cases t with
      | nil => exact h
      | cons c t =>
        obtain ⟨⟨hc, hslash⟩, ht⟩ := List.forall_mem_cons.mp hplain
        have hcq : c ≠ q := by rintro rfl; simp [hq] at hc
        rw [stringsClose_some_cons hslash, if_neg hcq] at h
        exact ih h ht

/-- A string that is closed is read alike whatever follows, and closes what it has opened. -/
theorem unquote_append {t : List Char} (h : stringsClose (some q) t = true) (s : List Char) :
    unquote q (t ++ s) = ((unquote q t).1, (unquote q t).2 ++ s) ∧
      stringsClose none (unquote q t).2 = true := by
  induction hk : t.length using Nat.strongRecOn generalizing t with
  | ind k ih =>
    have hpush {c : Char} {u : List Char} (hu : stringsClose (some q) u = true)
        (hlength : u.length < k) : push c (unquote q (u ++ s))
          = ((push c (unquote q u)).1, (push c (unquote q u)).2 ++ s) ∧
            stringsClose none (push c (unquote q u)).2 = true := by
      obtain ⟨heq, hclose⟩ := ih u.length hlength hu rfl
      exact ⟨by rw [heq]; rfl, hclose⟩
    cases t with
    | nil => simp [stringsClose] at h
    | cons c t =>
      rw [List.length_cons] at hk
      by_cases hslash : c = '\\'
      · subst hslash
        cases t with
        | nil => simp [stringsClose] at h
        | cons c t =>
          rw [stringsClose] at h
          rw [List.length_cons] at hk
          rw [List.cons_append, List.cons_append]
          by_cases hc : c = 'u'
          · subst hc
            rw [unquote_unicode, unquote_unicode,
              codePoint?_take_append hq (mem_of_stringsClose h)]
            cases hx : codePoint? (t.take 4) with
            | none => exact hpush h (by omega)
            | some x =>
              obtain ⟨hlength, hdrop⟩ := stringsClose_drop_of_codePoint? hq hx h
              rw [List.drop_append_of_le_length hlength]
              exact hpush hdrop (by rw [List.length_drop]; omega)
          · rw [unquote_escape hc, unquote_escape hc]
            exact hpush h (by omega)
      · rw [stringsClose_some_cons hslash] at h
        rw [List.cons_append, unquote_cons hslash, unquote_cons hslash]
        by_cases hcq : c = q
        · rw [if_pos hcq] at h
          rw [if_pos hcq, if_pos hcq]
          exact ⟨rfl, h⟩
        · rw [if_neg hcq] at h
          rw [if_neg hcq, if_neg hcq]
          exact hpush h (by omega)

end Unquote

end FrontendSync.Module.Token
