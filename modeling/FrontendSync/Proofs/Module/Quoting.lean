import FrontendSync.Proofs.Module.Strings
import Mathlib.Data.List.Forall2

/-!
# How strings are quoted

A quoted string stays on its line and escapes nothing but what its quotes and its line demand: no
text between the same quotes that is read as the same string is shorter.
-/

namespace FrontendSync.Module

/-- The characters with which a line ends. -/
def lineBreaks : List Char := ['\n', '\r', '\u2028', '\u2029']

/-- What is written for a character between quotes `q`: the character, unless it is a backslash,
ends a line or is the quote. -/
inductive IsWritten (q : Char) : Char → List Char → Prop
  | plain {c : Char} : c ≠ q → c ≠ '\\' → c ∉ lineBreaks → IsWritten q c [c]
  | backslash : IsWritten q '\\' ['\\', '\\']
  | lineFeed : IsWritten q '\n' ['\\', 'n']
  | carriageReturn : IsWritten q '\r' ['\\', 'r']
  | lineSeparator : IsWritten q '\u2028' ['\\', 'u', '2', '0', '2', '8']
  | paragraphSeparator : IsWritten q '\u2029' ['\\', 'u', '2', '0', '2', '9']
  | apostrophe : q = '\'' → IsWritten q '\'' ['\\', '\'']

namespace IsWritten

variable {q c : Char} {w : List Char}

theorem notMem_lineBreaks (h : IsWritten q c w) : ∀ d ∈ w, d ∉ lineBreaks := by
  cases h with
  | plain _ _ hc => simpa using hc
  | _ => simp [lineBreaks]

theorem length_le_six (h : IsWritten q c w) : w.length ≤ 6 := by cases h <;> simp

/-- Only the separators of lines and paragraphs take more than two characters. -/
theorem length_le_two (h : IsWritten q c w) (hc : c ∉ lineBreaks ∨ c = '\n' ∨ c = '\r') :
    w.length ≤ 2 := by
  cases h with
  | lineSeparator | paragraphSeparator => exact absurd hc (by decide)
  | _ => simp

theorem length_le_one (h : IsWritten q c w) (hq : c ≠ q) (hslash : c ≠ '\\')
    (hc : c ∉ lineBreaks) : w.length ≤ 1 := by
  cases h with
  | plain => simp
  | backslash => exact absurd rfl hslash
  | apostrophe h => exact absurd h.symm hq
  | _ => exact absurd hc (by decide)

end IsWritten

/-! ## What the writer writes -/

theorem isWritten_escapeChar {q c : Char} (h : c ≠ q) : IsWritten q c (escapeChar c) := by
  unfold escapeChar
  split
  · exact .backslash
  · exact .lineFeed
  · exact .carriageReturn
  · exact .lineSeparator
  · exact .paragraphSeparator
  · rename_i hslash hfeed hreturn hline hparagraph
    exact .plain h hslash (by simpa [lineBreaks] using ⟨hfeed, hreturn, hline, hparagraph⟩)

theorem isWritten_escapeApostrophe (c : Char) : IsWritten '\'' c (escapeApostrophe c) := by
  unfold escapeApostrophe
  split
  · rename_i h
    subst h
    exact .apostrophe rfl
  · rename_i h
    exact isWritten_escapeChar h

/-- The quotes and what is written between them. -/
theorem exists_quoteChars_eq_flatten (s : List Char) : ∃ (q : Char) (ws : List (List Char)),
    quoteChars s = q :: (ws.flatten ++ [q]) ∧ List.Forall₂ (IsWritten q) s ws ∧
      (q = '"' ∨ q = '\'') ∧ (q = '"' ↔ '\'' ∈ s ∧ '"' ∉ s) := by
  unfold quoteChars
  split
  · rename_i h
    simp only [Bool.and_eq_true, Bool.not_eq_true', List.contains_eq_mem, decide_eq_true_eq,
      decide_eq_false_iff_not] at h
    refine ⟨'"', s.map escapeChar, rfl, ?_, .inl rfl, iff_of_true rfl h⟩
    rw [List.forall₂_map_right_iff, List.forall₂_same]
    intro c hc
    refine isWritten_escapeChar ?_
    rintro rfl
    exact h.2 hc
  · rename_i h
    simp only [Bool.and_eq_true, Bool.not_eq_true', List.contains_eq_mem, decide_eq_true_eq,
      decide_eq_false_iff_not] at h
    refine ⟨'\'', s.map escapeApostrophe, rfl, ?_, .inr rfl, iff_of_false (by decide) h⟩
    rw [List.forall₂_map_right_iff, List.forall₂_same]
    exact fun c _ ↦ isWritten_escapeApostrophe c

theorem notMem_lineBreaks_of_mem_flatten {q : Char} {s : List Char} {ws : List (List Char)}
    (h : List.Forall₂ (IsWritten q) s ws) : ∀ c ∈ ws.flatten, c ∉ lineBreaks := by
  induction h with
  | nil => simp
  | cons hw _ ih => exact List.forall_mem_append.mpr ⟨hw.notMem_lineBreaks, ih⟩

/-! ## Shorter texts -/

theorem escaped_notMem {c : Char} (h : c ∉ lineBreaks) :
    Token.escaped c ∉ lineBreaks ∨ Token.escaped c = '\n' ∨ Token.escaped c = '\r' := by
  unfold Token.escaped
  split
  · exact .inr (.inl rfl)
  · exact .inr (.inr rfl)
  · exact .inl (by decide)
  · exact .inl h

section Reading

variable {q : Char} {s rest : List Char} {ws : List (List Char)}

/-- A text from which a character and then a string is read is at least as long as what is written
for both, if this holds of the rest of the text and of the character. -/
theorem length_flatten_lt_of_push (y : List Char) (n : Nat) {c : Char} {r : List Char × List Char}
    (hread : Token.push c r = (s, rest)) (hws : List.Forall₂ (IsWritten q) s ws)
    (hrest : ∀ vs, r = (r.1, rest) → List.Forall₂ (IsWritten q) r.1 vs →
      vs.flatten.length + rest.length < y.length)
    (hchar : ∀ w, IsWritten q c w → w.length ≤ n) :
    ws.flatten.length + rest.length < y.length + n := by
  obtain ⟨rfl, rfl⟩ := Prod.mk.inj hread
  cases hws with
  | @cons _ w _ vs hw hvs =>
    have hlt := hrest vs rfl hvs
    have hle := hchar w hw
    rw [List.flatten_cons, List.length_append]
    omega

/-- No text without line breaks up to the closing quote is shorter than what is written for the
string that is read of it. -/
theorem length_flatten_lt {x : List Char} (hread : Token.unquote q x = (s, rest))
    (hrest : rest ≠ []) (hx : ∀ c ∈ x, c ∉ lineBreaks)
    (hws : List.Forall₂ (IsWritten q) s ws) : ws.flatten.length + rest.length < x.length := by
  fun_induction Token.unquote q x generalizing s ws with
  | case1 => simp_all
  | case2 a b c d t y hy ih =>
    exact length_flatten_lt_of_push t 6 hread hws
      (fun _ hread hvs ↦ ih hread (fun e he ↦ hx e (by simp [he])) hvs)
      fun _ hw ↦ hw.length_le_six
  | case3 a b c d t hy ih =>
    exact length_flatten_lt_of_push (a :: b :: c :: d :: t) 2 hread hws
      (fun _ hread hvs ↦
        ih hread (fun e he ↦ hx e (List.mem_cons_of_mem _ (List.mem_cons_of_mem _ he))) hvs)
      fun _ hw ↦ hw.length_le_two (.inl (by decide))
  | case4 t hshort y hy => exact absurd (Prod.mk.inj hread).2.symm hrest
  | case5 t hshort hy ih =>
    exact length_flatten_lt_of_push t 2 hread hws
      (fun _ hread hvs ↦ ih hread (fun e he ↦ hx e (by simp [he])) hvs)
      fun _ hw ↦ hw.length_le_two (.inl (by decide))
  | case6 c t _ _ ih =>
    exact length_flatten_lt_of_push t 2 hread hws
      (fun _ hread hvs ↦ ih hread (fun e he ↦ hx e (by simp [he])) hvs)
      fun _ hw ↦ hw.length_le_two (escaped_notMem (hx c (by simp)))
  | case7 => simp_all
  | case8 =>
    obtain ⟨rfl, rfl⟩ := Prod.mk.inj hread
    obtain rfl := List.forall₂_nil_left_iff.mp hws
    simp
  | case9 c t _ _ hcons hnil hq ih =>
    have hslash : c ≠ '\\' := by
      rintro rfl
      cases t with
      | nil => exact hnil rfl rfl
      | cons d t => exact hcons d t rfl rfl
    exact length_flatten_lt_of_push t 1 hread hws
      (fun _ hread hvs ↦ ih hread (fun e he ↦ hx e (List.mem_cons_of_mem _ he)) hvs)
      fun _ hw ↦ hw.length_le_one hq hslash (hx c List.mem_cons_self)

end Reading

/-! ## Quoted strings -/

/-- A quoted string stays on its line, escapes only what its quotes and its line demand, is no
longer than any text between the same quotes that reads as the same string, and is copied by the
stripper and read back whatever follows. -/
theorem quote_minimal_and_read_back (s : String) : ∃ (q : Char) (ws : List (List Char)),
    (quote s).toList = q :: (ws.flatten ++ [q]) ∧ List.Forall₂ (IsWritten q) s.toList ws ∧
    (q = '"' ∨ q = '\'') ∧ (q = '"' ↔ '\'' ∈ s.toList ∧ '"' ∉ s.toList) ∧
    (∀ c ∈ (quote s).toList, c ∉ lineBreaks) ∧
    (∀ t, (∀ c ∈ t, c ∉ lineBreaks) →
      (∀ rest, Token.unquote q (t ++ q :: rest) = (s.toList, rest)) →
      ws.flatten.length ≤ t.length) ∧
    ∀ rest, Token.all ((quote s).toList ++ rest) = .string s :: Token.all rest ∧
      Strip.strip .code ((quote s).toList ++ rest)
        = (quote s).toList ++ Strip.strip .code rest := by
  obtain ⟨q, ws, heq, hws, hq, hquote⟩ := exists_quoteChars_eq_flatten s.toList
  have hbreak : q ∉ lineBreaks := by rcases hq with rfl | rfl <;> decide
  refine ⟨q, ws, ?_, hws, hq, hquote, ?_, ?_, ?_⟩
  · rw [quote, String.toList_ofList, heq]
  · rw [quote, String.toList_ofList, heq]
    simpa [or_imp, forall_and, hbreak] using notMem_lineBreaks_of_mem_flatten hws
  · intro t ht hread
    have hlines : ∀ c ∈ t ++ q :: ['x'], c ∉ lineBreaks := by
      simpa [or_imp, forall_and, hbreak] using ⟨ht, by decide⟩
    have hlt := length_flatten_lt (hread ['x']) (by simp) hlines hws
    simp only [List.length_append, List.length_cons, List.length_nil] at hlt
    omega
  · intro rest
    rw [quote, String.toList_ofList, all_quoteChars, String.ofList_toList]
    exact ⟨rfl, strip_quoteChars s.toList rest⟩

/-- An apostrophe between double quotes takes less than one that is escaped. -/
theorem quote_shorter_apostrophe : ∃ ws,
    quote "don't\u2028" = String.ofList ('"' :: (ws ++ ['"'])) ∧
    ws.length ≤ "don\\'t\\u2028".length ∧
    Token.all ((quote "don't\u2028").toList ++ [';'])
      = .string "don't\u2028" :: Token.all [';'] := by
  obtain ⟨q, ws, heq, -, -, hquote, -, hshort, hrest⟩ := quote_minimal_and_read_back "don't\u2028"
  obtain rfl : q = '"' := hquote.mpr (by decide)
  have hread (rest : List Char) : Token.unquote '"' ("don\\'t\\u2028".toList ++ '"' :: rest)
      = ("don't\u2028".toList, rest) := by
    rfl
  exact ⟨ws.flatten, by rw [← heq, String.ofList_toList], hshort _ (by simp [lineBreaks]) hread,
    (hrest [';']).1⟩

end FrontendSync.Module
