import FrontendSync.Module.TranslatorModule
import FrontendSync.Proofs.Text.Pieces
import FrontendSync.Proofs.Text.Replace

/-!
# Template literals with keys

A template literal is read part by part up to its closing backtick.  Whatever the key of a
translator helper is, the literal that holds it has the characters of the key, a dot and one
substitution, and the text around the literal does not depend on the key.
-/

namespace FrontendSync.Module

/-! ## Reading template literals -/

namespace Template

/-- A character of the text, or a substitution by its code. -/
inductive Part where
  | char (c : Char)
  | code (text : List Char)
deriving DecidableEq, Repr

/-- The parts of a template literal behind its opening backtick, and what follows the closing one.
A backslash escapes a backslash, a backtick or a dollar sign and nothing else; the code of a
substitution ends with the first brace that closes. -/
def read? (s : List Char) : Option (List Part × List Char) :=
  match s with
  | [] => none
  | '`' :: s => some ([], s)
  | '\\' :: c :: s =>
    if c = '\\' ∨ c = '`' ∨ c = '$' then (read? s).map fun r ↦ (.char c :: r.1, r.2) else none
  | '$' :: '{' :: s =>
    let code := s.takeWhile (· ≠ '}')
    (read? (s.drop (code.length + 1))).map fun r ↦ (.code code :: r.1, r.2)
  | c :: s => (read? s).map fun r ↦ (.char c :: r.1, r.2)
termination_by s.length
decreasing_by all_goals simp only [List.length_cons, List.length_drop]; omega

theorem read?_escaped {c : Char} (h : c = '\\' ∨ c = '`' ∨ c = '$') (s : List Char) :
    read? ('\\' :: c :: s) = (read? s).map fun r ↦ (.char c :: r.1, r.2) := by
  rw [read?, if_pos h]

/-- A character that is not special stands for itself, and so does a dollar sign in front of
anything but a brace. -/
theorem read?_cons {c : Char} {s : List Char} (hslash : c ≠ '\\') (htick : c ≠ '`')
    (hcode : c = '$' → s.head? ≠ some '{') :
    read? (c :: s) = (read? s).map fun r ↦ (.char c :: r.1, r.2) := by
  rw [read?]
  · exact fun h ↦ htick h
  · exact fun d t h _ ↦ hslash h
  · rintro t rfl rfl
    exact hcode rfl rfl

end Template

/-! ## Escaped keys -/

namespace TranslatorModule

open Text (replace replace_nil replace_cons replace_append replace_singleton_cons)

/-- The escaped text begins with a brace only if the text does. -/
theorem head?_of_head?_escapeTemplate {s : List Char}
    (h : (escapeTemplate s).head? = some '{') : s.head? = some '{' := by
  fun_cases escapeTemplate s <;> simp_all [escapeTemplate]

theorem head?_of_head?_replace {d b : Char} {new s : List Char} (hnew : new ≠ [])
    (hb : new.head? ≠ some b) (h : (replace [d] new s).head? = some b) : s.head? = some b := by
  cases s with
  | nil => simp [replace_nil] at h
  | cons c s =>
    rw [replace_singleton_cons] at h
    obtain ⟨a, new, rfl⟩ := List.exists_cons_of_ne_nil hnew
    split at h
    · exact absurd h hb
    · simpa using h

/-- Escaping is three replacements, one after the other: no later one finds what an earlier one has
put in. -/
theorem escapeTemplate_eq_replace (s : List Char) :
    escapeTemplate s = replace ['$', '{'] ['\\', '$', '{']
      (replace ['`'] ['\\', '`'] (replace ['\\'] ['\\', '\\'] s)) := by
  have hcons {c : Char} (hc : c ≠ '$') (t : List Char) :
      replace ['$', '{'] ['\\', '$', '{'] (c :: t)
        = c :: replace ['$', '{'] ['\\', '$', '{'] t :=
    replace_cons (fun hprefix ↦ hc (List.cons_prefix_cons.mp hprefix).1.symm) _
  fun_induction escapeTemplate s with
  | case1 => simp [replace_nil]
  | case2 s ih =>
    simp [replace_singleton_cons, hcons, ih]
  | case3 s ih =>
    simp [replace_singleton_cons, hcons, ih]
  | case4 s ih =>
    have hcode := replace_append (List.cons_ne_nil '$' ['{']) ['\\', '$', '{']
      (replace ['`'] ['\\', '`'] (replace ['\\'] ['\\', '\\'] s))
    simp only [List.cons_append, List.nil_append] at hcode
    simp [replace_singleton_cons, hcode, ih]
  | case5 c s hslash htick hcode ih =>
    have hprefix : ¬ ['$', '{'] <+: c :: replace ['`'] ['\\', '`']
        (replace ['\\'] ['\\', '\\'] s) := by
      rintro ⟨t, ht⟩
      obtain ⟨rfl, hrest⟩ := List.cons.inj ht
      have hticks : (replace ['`'] ['\\', '`'] (replace ['\\'] ['\\', '\\'] s)).head? = some '{' := by
        rw [← hrest]
        rfl
      have hslashes := head?_of_head?_replace (by simp) (by simp) hticks
      have hhead : s.head? = some '{' := head?_of_head?_replace (by simp) (by simp) hslashes
      obtain ⟨u, hu⟩ := List.head?_eq_some_iff.mp hhead
      exact hcode u rfl hu
    rw [replace_singleton_cons, if_neg hslash, List.singleton_append, replace_singleton_cons,
      if_neg htick, List.singleton_append, replace_cons hprefix, ih]

/-- An escaped text is read back, also in front of the text that follows it. -/
theorem read?_escapeTemplate_append (key : List Char) {rest : List Char}
    (h : rest.head? ≠ some '{') :
    Template.read? (escapeTemplate key ++ rest)
      = (Template.read? rest).map fun r ↦ (key.map .char ++ r.1, r.2) := by
  have hmap (c : Char) (s : List Char) :
      ((Template.read? rest).map fun r ↦ (s.map Template.Part.char ++ r.1, r.2)).map
        (fun r ↦ (Template.Part.char c :: r.1, r.2))
        = (Template.read? rest).map fun r ↦ ((c :: s).map .char ++ r.1, r.2) := by
    rw [Option.map_map]
    rfl
  fun_induction escapeTemplate key with
  | case1 => simp
  | case2 s ih =>
    rw [List.cons_append, List.cons_append, Template.read?_escaped (by simp), ih, hmap]
  | case3 s ih =>
    rw [List.cons_append, List.cons_append, Template.read?_escaped (by simp), ih, hmap]
  | case4 s ih =>
    rw [List.cons_append, List.cons_append, List.cons_append, Template.read?_escaped (by simp),
      Template.read?_cons (by decide) (by decide) (fun h ↦ absurd h (by decide)), ih, hmap, hmap]
  | case5 c s hslash htick hcode ih =>
    rw [List.cons_append, Template.read?_cons hslash htick ?_, ih, hmap]
    rintro rfl hhead
    cases hescaped : escapeTemplate s with
    | nil => exact h (by simpa [hescaped] using hhead)
    | cons d ds =>
      have hs : s.head? = some '{' :=
        head?_of_head?_escapeTemplate (by simpa [hescaped] using hhead)
      obtain ⟨u, hu⟩ := List.head?_eq_some_iff.mp hs
      exact hcode u rfl hu

/-! ## Modules -/

/-- The literal of a key without its opening backtick: the key, a dot, the value, and the closing
backtick. -/
theorem read?_keyTemplate (key after : List Char) :
    Template.read? (escapeTemplate key ++ (".$\x7bvalue\x7d`".toList ++ after))
      = some (key.map .char ++ [.char '.', .code "value".toList], after) := by
  have hend : Template.read? (".$\x7bvalue\x7d`".toList ++ after)
      = some ([.char '.', .code "value".toList], after) := by
    have htext : ".$\x7bvalue\x7d`".toList ++ after
        = '.' :: '$' :: '{' :: ("value".toList ++ '}' :: '`' :: after) := rfl
    have hvalue : ("value".toList ++ '}' :: '`' :: after).takeWhile (· ≠ '}') = "value".toList :=
      rfl
    rw [htext, Template.read?_cons (by decide) (by decide) (fun h ↦ absurd h (by decide)),
      Template.read?, hvalue]
    have hrest : ("value".toList ++ '}' :: '`' :: after).drop ("value".toList.length + 1)
      = '`' :: after := rfl
    simp only [hrest]
    rw [Template.read?]
    rfl
  rw [read?_escapeTemplate_append key (by simp), hend]
  rfl

/-- Only one row of a module has the key, and in it only the literal. -/
theorem exists_lines_eq (style : Style) (runtime : Runtime) (helper : String) (t : Translator) :
    ∃ front left right behind, ∀ key, lines style runtime helper { t with key := key }
      = front ++ (left ++ "[value, " ++ keyTemplate key ++ right) :: behind := by
  refine ⟨(lines style runtime helper t).take 7,
    indent ++ indent ++ "Object.values(" ++ t.enumName ++ ").map((value) => ",
    "])" ++ if style.trailingComma then "," else "",
    (lines style runtime helper t).drop 8, fun key ↦ ?_⟩
  have hvalue : ").map((value) => [value, " = ").map((value) => " ++ "[value, " := by decide
  simp only [lines, hvalue, String.append_assoc]
  rfl

/-- Whatever the key is, the literal behind the same text reads as the characters of the key, a dot
and the value, and the same text follows its closing backtick. -/
theorem text_eq_and_read?_literal (style : Style) (runtime : Runtime) (helper : String)
    (t : Translator) :
    ∃ before after : List Char, "[value, ".toList <:+ before ∧ ∀ key : String, ∃ literal,
      (text style runtime helper { t with key := key }).toList
        = before ++ '`' :: (literal ++ after) ∧
      Template.read? (literal ++ after)
        = some (key.toList.map .char ++ [.char '.', .code "value".toList], after) := by
  obtain ⟨front, left, right, behind, hlines⟩ := exists_lines_eq style runtime helper t
  refine ⟨front.flatMap (·.toList ++ ['\n']) ++ (left ++ "[value, ").toList,
    right.toList ++ behind.flatMap ('\n' :: ·.toList), ?_, fun key ↦
      ⟨escapeTemplate key.toList ++ ".$\x7bvalue\x7d`".toList, ?_, ?_⟩⟩
  · rw [String.toList_append, ← List.append_assoc]
    exact List.suffix_append _ _
  · rw [text, hlines, Text.unlines_append_cons, keyTemplate]
    simp [String.toList_append]
  · rw [List.append_assoc]
    exact read?_keyTemplate key.toList _

end TranslatorModule

end FrontendSync.Module
