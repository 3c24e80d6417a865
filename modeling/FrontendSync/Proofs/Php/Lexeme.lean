import FrontendSync.Proofs.Php.WellFormed
import FrontendSync.Proofs.Text.Property

/-!
# Tokens of a source

Every token of a source is well-formed: a number is read from digits without a sign, and a name
consists of the characters of names.
-/

namespace FrontendSync

namespace Decimal

/-- An integer without a minus sign is not negative. -/
theorem isLiteral_of_int? {s : List Char} {n : Int} (hs : s.head? ≠ some '-')
    (h : int? s = some n) : IsLiteral n := by
  have hnat {m : Option Nat} (hm : (m.map Int.ofNat).filter fits = some n) : IsLiteral n := by
    obtain ⟨hmap, hfits⟩ := Option.filter_eq_some_iff.mp hm
    obtain ⟨k, -, rfl⟩ := Option.map_eq_some_iff.mp hmap
    refine ⟨le_trans (by decide) (Int.natCast_nonneg k), (fits_iff.mp hfits).2⟩
  unfold int? at h
  split at h
  · exact absurd rfl hs
  · exact hnat h
  · exact hnat h

end Decimal

namespace Php.Lexeme

/-- The token of a lexeme, if it has one, is well-formed. -/
def WellFormed (l : Lexeme) : Prop := ∀ k ∈ l.kind, k.WellFormed

theorem isNameChar_of_isNameStart {c : Char} (h : isNameStart c = true) :
    isNameChar c = true := by
  simp only [isNameStart, isNameChar, Char.isAlphanum, Bool.or_eq_true] at h ⊢
  rcases h with (h | h) | h
  · exact .inl (.inl (.inl h))
  · exact .inl (.inr h)
  · exact .inr h

theorem not_isDigit_of_isNameStart {c : Char} (h : isNameStart c = true) : c.isDigit = false := by
  refine Bool.eq_false_iff.mpr fun hd ↦ ?_
  simp only [Char.isDigit, Bool.and_eq_true, decide_eq_true_eq] at hd
  have hlow : 48 ≤ c.toNat := hd.1
  have hhigh : c.toNat ≤ 57 := hd.2
  simp only [isNameStart, Bool.or_eq_true, Text.isAlpha_iff, decide_eq_true_eq, beq_iff_eq] at h
  rcases h with ((h | h) | rfl) | h
  · omega
  · omega
  · exact absurd hhigh (by decide)
  · omega

theorem isNameChar_or_of_mem_nameTail {s : List Char} {c : Char} (h : c ∈ nameTail s) :
    isNameChar c = true ∨ c = '\\' := by
  induction s with
  | nil => simp [nameTail] at h
  | cons d s ih =>
    rw [nameTail] at h
    split at h
    · rename_i hd
      rcases List.mem_cons.mp h with rfl | h
      · simp only [Bool.or_eq_true, Bool.and_eq_true, beq_iff_eq] at hd
        exact hd.imp_right And.left
      · exact ih h
    · simp at h

/-- A name starts with one of its letters or with a backslash. -/
theorem isNameText_name {c : Char} (hc : isNameStart c = true ∨ c = '\\') (s : List Char) :
    IsNameText (String.ofList (c :: nameTail s)) := by
  constructor
  · intro d hd
    rw [String.toList_ofList] at hd
    rcases List.mem_cons.mp hd with rfl | hd
    · exact hc.imp_left isNameChar_of_isNameStart
    · exact isNameChar_or_of_mem_nameTail hd
  · rw [String.toList_ofList]
    rcases hc with hc | rfl
    · exact not_isDigit_of_isNameStart hc
    · rfl

theorem wellFormed_hexadecimal (text digits : List Char) :
    (hexadecimal text digits).WellFormed := by
  rintro k hk
  obtain rfl := Option.some.inj hk
  split
  · rename_i h
    exact ⟨le_trans (by decide) (Int.natCast_nonneg _), (Decimal.fits_iff.mp h.2).2⟩
  · trivial

/-- The text of a number without a fraction and an exponent has no sign. -/
theorem head?_dropMarks_takeWhile (s : List Char) :
    (dropMarks (s.takeWhile isDigitOrMark)).head? ≠ some '-' := by
  intro h
  have hmem := List.mem_of_mem_filter (List.mem_of_mem_head? h)
  exact absurd (List.all_eq_true.mp List.all_takeWhile _ hmem) (by decide)

theorem wellFormed_decimal (s : List Char) : (decimal s).WellFormed := by
  have hfloat (t : List Char) : ((Binary64.ofText? t).getD .zero).IsCanonical := by
    cases hx : Binary64.ofText? t with
    | none => exact ⟨by decide, le_refl _, by decide, .inr rfl⟩
    | some x => exact Binary64.isCanonical_of_ofText? hx
  rintro k hk
  obtain rfl := Option.some.inj hk
  split
  · rename_i hplain
    split
    · rename_i n hn
      obtain ⟨hfraction, hexponent⟩ := hplain
      rw [hexponent, hfraction, List.append_nil, List.append_nil] at hn
      exact Decimal.isLiteral_of_int? (head?_dropMarks_takeWhile s) hn
    · exact hfloat _
  · exact hfloat _

theorem wellFormed_number (s : List Char) : (number s).WellFormed := by
  unfold number
  split
  · split
    · exact wellFormed_hexadecimal _ _
    · exact wellFormed_decimal _
  · exact wellFormed_decimal _

theorem wellFormed_heredocBody (label s : List Char) : (heredocBody label s).WellFormed := by
  unfold heredocBody
  split <;> rintro k hk <;> obtain rfl := Option.some.inj hk <;> trivial

/-- The text of a lexeme does not matter. -/
theorem WellFormed.withText {l : Lexeme} (h : l.WellFormed) (text : List Char) :
    WellFormed ⟨text, l.kind⟩ := h

theorem wellFormed_heredoc (s : List Char) : (heredoc s).WellFormed := by
  unfold heredoc
  exact (wellFormed_heredocBody _ _).withText _

theorem wellFormed_symbol (c : Char) (s : List Char) : (symbol c s).WellFormed := by
  unfold symbol
  split
  · split <;> rintro k hk <;> obtain rfl := Option.some.inj hk <;> trivial
  · rintro k hk
    obtain rfl := Option.some.inj hk
    trivial

theorem wellFormed_first (c : Char) (s : List Char) : (first c s).WellFormed := by
  have hnone (text : List Char) : WellFormed ⟨text, none⟩ := fun k hk ↦ absurd hk (by simp)
  have hsome {text : List Char} {kind : Token.Kind} (h : kind.WellFormed) :
      WellFormed ⟨text, some kind⟩ := by
    rintro k hk
    obtain rfl := Option.some.inj hk
    exact h
  unfold first
  split
  · exact hnone _
  split
  · exact hnone _
  split
  · exact (wellFormed_heredoc _).withText _
  split
  · exact hsome trivial
  split
  · exact hnone _
  split
  · exact hnone _
  split
  · exact hsome trivial
  split
  · exact hsome trivial
  split
  · exact wellFormed_number _
  split
  · rename_i hname
    exact hsome (isNameText_name (hname.imp_right And.left) s)
  · exact wellFormed_symbol c s

theorem wellFormed_of_mem_all {skip : Nat} {s : List Char} {l : Lexeme} (h : l ∈ all skip s) :
    l.WellFormed := by
  fun_induction all skip s with
  | case1 => simp at h
  | case2 skip c s ih => exact ih h
  | case3 c s ih =>
    rcases List.mem_cons.mp h with rfl | h
    · exact wellFormed_first c s
    · exact ih h

theorem exists_of_mem_tokens {line : Nat} {ls : List Lexeme} {t : Token} (h : t ∈ tokens line ls) :
    ∃ l ∈ ls, l.kind = some t.kind := by
  induction ls generalizing line with
  | nil => simp [tokens] at h
  | cons l ls ih =>
    rw [tokens] at h
    split at h
    · rename_i kind hkind
      rcases List.mem_cons.mp h with rfl | h
      · exact ⟨l, List.mem_cons_self, hkind⟩
      · obtain ⟨m, hm, hmkind⟩ := ih h
        exact ⟨m, List.mem_cons_of_mem l hm, hmkind⟩
    · obtain ⟨m, hm, hmkind⟩ := ih h
      exact ⟨m, List.mem_cons_of_mem l hm, hmkind⟩

theorem allWellFormed_tokens (line : Nat) {ls : List Lexeme} (h : ∀ l ∈ ls, l.WellFormed) :
    Token.AllWellFormed (tokens line ls) := by
  intro t ht
  obtain ⟨l, hl, hkind⟩ := exists_of_mem_tokens ht
  exact h l hl t.kind hkind

end Php.Lexeme

/-- Every token of a source is well-formed. -/
theorem Php.allWellFormed_tokens (source : String) : Token.AllWellFormed (tokens source) :=
  Lexeme.allWellFormed_tokens 1 fun _ ↦ Lexeme.wellFormed_of_mem_all

end FrontendSync
