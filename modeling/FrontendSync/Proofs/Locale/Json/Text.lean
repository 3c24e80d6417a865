import FrontendSync.Locale.Json.Text

/-!
# JSON strings read back

What is written for a character is read as that character, so a quoted string is read back whatever
follows it.  No line break of any kind stands in it.
-/

namespace FrontendSync.Json

/-! ## Characters -/

theorem hexValue?_hexDigit {n : Nat} (h : n < 16) : hexValue? (hexDigit n) = some n := by
  have hall : ∀ m : Fin 16, hexValue? (hexDigit m) = some (m : Nat) := by decide
  exact hall ⟨n, h⟩

/-- Two digits are enough for the characters below the space. -/
theorem unicode?_hexDigits {c : Char} (h : c.toNat < 0x20) (s : List Char) :
    unicode? ('0' :: '0' :: hexDigit (c.toNat / 16) :: hexDigit (c.toNat % 16) :: s)
      = some (c, s) := by
  have hhigh := hexValue?_hexDigit (n := c.toNat / 16) (by omega)
  have hlow := hexValue?_hexDigit (n := c.toNat % 16) (by omega)
  have hzero : hexValue? '0' = some 0 := by decide
  have hunit : unit? ('0' :: '0' :: hexDigit (c.toNat / 16) :: hexDigit (c.toNat % 16) :: s)
      = some (c.toNat, s) := by
    have hsum : ((0 * 16 + 0) * 16 + c.toNat / 16) * 16 + c.toNat % 16 = c.toNat := by omega
    simp only [unit?, hzero, hhigh, hlow, Option.bind_eq_bind, Option.bind_some, Option.pure_def,
      hsum]
  have hnotHigh : isHigh c.toNat = false := by
    simp only [isHigh, Bool.and_eq_false_iff, decide_eq_false_iff_not]
    omega
  have hnotLow : isLow c.toNat = false := by
    simp only [isLow, Bool.and_eq_false_iff, decide_eq_false_iff_not]
    omega
  simp [unicode?, hunit, hnotHigh, hnotLow]

/-- A character in front of what is read. -/
def push (c : Char) (r : Option (List Char × List Char)) : Option (List Char × List Char) :=
  r.map fun (cs, s) ↦ (c :: cs, s)

theorem unquote?_escapeChar (n : Nat) (c : Char) (s : List Char) :
    unquote? (n + 1) (escapeChar c ++ s) = push c (unquote? n s) := by
  have hsimple {d e : Char} (hd : simpleEscape? d = some e) (hu : d ≠ 'u') :
      unquote? (n + 1) ('\\' :: d :: s) = push e (unquote? n s) := by
    rw [unquote?]
    · simp only [hd]
      cases unquote? n s <;> rfl
    · exact hu
  unfold escapeChar
  split
  · exact hsimple rfl (by decide)
  · exact hsimple rfl (by decide)
  · exact hsimple rfl (by decide)
  · exact hsimple rfl (by decide)
  · exact hsimple rfl (by decide)
  · exact hsimple rfl (by decide)
  · exact hsimple rfl (by decide)
  · rename_i hquote hbackslash _ _ _ _ _
    split
    · rename_i hcontrol
      simp only [List.cons_append, List.nil_append, unquote?]
      rw [unicode?_hexDigits hcontrol]
      cases h : unquote? n s <;> simp [push, h]
    · rename_i hprinted
      have hplain : (decide (c.toNat < 0x20) || c == '\\') = false := by
        simpa [hprinted] using hbackslash
      rw [List.singleton_append, unquote?]
      · rw [hplain]
        cases unquote? n s <;> rfl
      · exact hquote
      · exact fun _ h ↦ absurd h hbackslash
      · exact fun _ _ h ↦ absurd h hbackslash

/-- The characters of a string are read up to the quote behind them. -/
theorem unquote?_flatMap_escapeChar {s : List Char} {n : Nat} (h : s.length < n)
    (rest : List Char) : unquote? n (s.flatMap escapeChar ++ '"' :: rest) = some (s, rest) := by
  induction s generalizing n with
  | nil =>
    obtain ⟨m, rfl⟩ : ∃ m, n = m + 1 := ⟨n - 1, by omega⟩
    rfl
  | cons c s ih =>
    obtain ⟨m, rfl⟩ : ∃ m, n = m + 1 := ⟨n - 1, by omega⟩
    have hs : s.length < m := Nat.lt_of_succ_lt_succ h
    rw [List.flatMap_cons, List.append_assoc, unquote?_escapeChar, ih hs]
    rfl

/-! ## Strings -/

theorem escapeChar_ne_nil (c : Char) : escapeChar c ≠ [] := by
  unfold escapeChar
  repeat' split
  all_goals simp

theorem length_le_length_flatMap_escapeChar (s : List Char) :
    s.length ≤ (s.flatMap escapeChar).length := by
  induction s with
  | nil => exact Nat.le_refl _
  | cons c s ih =>
    have hpos := List.length_pos_iff.mpr (escapeChar_ne_nil c)
    rw [List.flatMap_cons, List.length_append, List.length_cons]
    omega

/-- Control characters are written by their numbers, line breaks among them. -/
theorem le_toNat_of_mem_escapeChar {c d : Char} (h : d ∈ escapeChar c) : 0x20 ≤ d.toNat := by
  have hdigits : ∀ m : Fin 16, 0x20 ≤ (hexDigit m).toNat := by decide
  unfold escapeChar at h
  split at h
  any_goals (revert h; simp; rintro (rfl | rfl) <;> decide)
  split at h
  · rename_i hcontrol
    have hhigh := hdigits ⟨c.toNat / 16, by omega⟩
    have hlow := hdigits ⟨c.toNat % 16, by omega⟩
    simp only [List.mem_cons, List.not_mem_nil, or_false] at h
    rcases h with rfl | rfl | rfl | rfl | rfl | rfl
    · decide
    · decide
    · decide
    · decide
    · exact hhigh
    · exact hlow
  · rename_i hprinted
    obtain rfl := List.mem_singleton.mp h
    exact Nat.le_of_not_lt hprinted

theorem le_toNat_of_mem_quoted {s : String} {d : Char} (h : d ∈ quoted s) : 0x20 ≤ d.toNat := by
  rcases List.mem_cons.mp h with rfl | h
  · decide
  rcases List.mem_append.mp h with h | h
  · obtain ⟨c, -, hd⟩ := List.mem_flatMap.mp h
    exact le_toNat_of_mem_escapeChar hd
  · obtain rfl := List.mem_singleton.mp h
    decide

end FrontendSync.Json
