import Mathlib.Data.List.DropRight
import FrontendSync.Proofs.Module.Envelope
import FrontendSync.Proofs.Text.Pieces
import FrontendSync.Proofs.Text.Replace

/-!
# Lines of files

The lines of a body stand in its file as they are, up to the last one that is not blank, whichever
line breaks end them.  In front of them there are a directive and a banner at most, and every line
of the file ends with a line feed.
-/

namespace FrontendSync.Module.Envelope

open FrontendSync.Text

/-! ## Line breaks -/

/-- Plain line breaks come from two replacements, the first of both characters together. -/
theorem plainBreaks_eq_replace (s : List Char) :
    plainBreaks s = replace ['\r'] ['\n'] (replace ['\r', '\n'] ['\n'] s) := by
  fun_induction plainBreaks s with
  | case1 => rw [replace_nil, replace_nil]
  | case2 s ih =>
    have hpair := replace_append (List.cons_ne_nil '\r' ['\n']) ['\n'] s
    rw [List.cons_append, List.cons_append, List.nil_append, List.singleton_append] at hpair
    rw [hpair, replace_singleton_cons, ih]
    rfl
  | case3 s hs ih =>
    have hpair : ¬ ['\r', '\n'] <+: '\r' :: s := by
      rintro ⟨t, ht⟩
      exact hs t (List.cons.inj ht).2.symm
    rw [replace_cons hpair, replace_singleton_cons, ih]
    rfl
  | case4 c s _ hc ih =>
    have hpair : ¬ ['\r', '\n'] <+: c :: s := fun hprefix ↦
      hc (List.cons_prefix_cons.mp hprefix).1.symm
    rw [replace_cons hpair, replace_singleton_cons, if_neg hc, ih]
    rfl

def IsUnbroken (line : List Char) : Prop := '\n' ∉ line ∧ '\r' ∉ line

/-- A text is cut into lines at its line breaks: a carriage return with a line feed behind it, and
any other carriage return or line feed. -/
inductive IsCut : List Char → List (List Char) → Prop
  | last {line : List Char} : IsUnbroken line → IsCut line [line]
  | both {line s : List Char} {ls : List (List Char)} : IsUnbroken line → IsCut s ls →
      IsCut (line ++ '\r' :: '\n' :: s) (line :: ls)
  | carriageReturn {line s : List Char} {ls : List (List Char)} : IsUnbroken line →
      s.head? ≠ some '\n' → IsCut s ls → IsCut (line ++ '\r' :: s) (line :: ls)
  | lineFeed {line s : List Char} {ls : List (List Char)} : IsUnbroken line → IsCut s ls →
      IsCut (line ++ '\n' :: s) (line :: ls)

namespace IsCut

variable {s : List Char} {ls : List (List Char)}

theorem cons {c : Char} {l : List Char} (hn : c ≠ '\n') (hr : c ≠ '\r') (h : IsCut s (l :: ls)) :
    IsCut (c :: s) ((c :: l) :: ls) := by
  have hline (hl : IsUnbroken l) : IsUnbroken (c :: l) :=
    ⟨by simp [Ne.symm hn, hl.1], by simp [Ne.symm hr, hl.2]⟩
  cases h with
  | last hl => exact .last (hline hl)
  | both hl hs => exact .both (hline hl) hs
  | carriageReturn hl hhead hs => exact .carriageReturn (hline hl) hhead hs
  | lineFeed hl hs => exact .lineFeed (hline hl) hs

/-- Lines are what is left between plain line breaks. -/
theorem eq_pieces (h : IsCut s ls) : ls = pieces '\n' (plainBreaks s) := by
  induction h with
  | last hline => rw [plainBreaks_eq_self hline.2, pieces_of_notMem hline.1]
  | both hline _ ih =>
    rw [plainBreaks_append hline.2, plainBreaks, pieces_append_cons, pieces_of_notMem hline.1, ← ih]
    rfl
  | @carriageReturn line s ls hline hhead _ ih =>
    have hbreak : plainBreaks ('\r' :: s) = '\n' :: plainBreaks s := by
      rw [plainBreaks]
      rintro t rfl
      exact hhead rfl
    rw [plainBreaks_append hline.2, hbreak, pieces_append_cons, pieces_of_notMem hline.1, ← ih]
    rfl
  | lineFeed hline _ ih =>
    rw [plainBreaks_append hline.2, plainBreaks_cons (by decide), pieces_append_cons,
      pieces_of_notMem hline.1, ← ih]
    rfl

theorem isUnbroken (h : IsCut s ls) : ∀ l ∈ ls, IsUnbroken l := by
  induction h with
  | last hline => exact List.forall_mem_singleton.mpr hline
  | both hline _ ih | carriageReturn hline _ _ ih | lineFeed hline _ ih =>
    exact List.forall_mem_cons.mpr ⟨hline, ih⟩

end IsCut

theorem isUnbroken_nil : IsUnbroken [] := ⟨List.not_mem_nil, List.not_mem_nil⟩

/-- Every text is cut into lines. -/
theorem isCut_pieces (s : List Char) : IsCut s (pieces '\n' (plainBreaks s)) := by
  have hbreak (t : List Char) : pieces '\n' ('\n' :: t) = [] :: pieces '\n' t :=
    pieces_append_cons [] t
  fun_induction plainBreaks s with
  | case1 => exact .last isUnbroken_nil
  | case2 s ih =>
    rw [hbreak]
    exact .both isUnbroken_nil ih
  | case3 s hs ih =>
    rw [hbreak]
    refine .carriageReturn isUnbroken_nil (fun hhead ↦ ?_) ih
    obtain ⟨t, ht⟩ := List.head?_eq_some_iff.mp hhead
    exact hs t ht
  | case4 c s _ hc ih =>
    by_cases hn : c = '\n'
    · rw [hn, hbreak]
      exact .lineFeed isUnbroken_nil ih
    · obtain ⟨l, ls, hl⟩ := List.exists_cons_of_ne_nil (pieces_ne_nil '\n' (plainBreaks s))
      rw [hl] at ih
      rw [pieces, hl]
      simp only [if_neg hn]
      exact ih.cons hn hc

/-! ## Files -/

/-- Whether some line is longer than a limit, which has to be above zero. -/
def IsExceeded (limit : Option Nat) (ls : List (List Char)) : Prop :=
  ∃ n, limit = some n ∧ 0 < n ∧ ∃ l ∈ ls, n < l.length

theorem isTooLong_iff {limit : Option Nat} {ls : List (List Char)} :
    isTooLong limit ls = true ↔ IsExceeded limit ls := by
  rcases limit with _ | _ | n
  · simp [isTooLong, IsExceeded]
  · simp [isTooLong, IsExceeded]
  · simp [isTooLong, IsExceeded]

/-- The lines between the directive and the body. -/
def heading : Format → List (List Char)
  | .json => []
  | .ts | .js => banner ++ [[]]

def EndsUnblank (ls : List (List Char)) : Prop :=
  ∃ front l, ls = front ++ [l] ∧ isBlankLine l = false

/-- The lines of a body without the blank ones at its end. -/
structure IsKept (body kept : List (List Char)) : Prop where
  ends : EndsUnblank kept
  rest : ∃ dropped, body = kept ++ dropped ∧ ∀ l ∈ dropped, isBlankLine l = true

/-- The lines of a file around those of a body.  There is a directive exactly if some line of the
file is too long. -/
structure IsFileOf (format : Format) (limit : Option Nat) (body file : List (List Char)) :
    Prop where
  unbroken : ∀ l ∈ file, IsUnbroken l
  ends : EndsUnblank file
  lines : ∃ lead kept, file = lead ++ (heading format ++ kept) ∧ IsKept body kept ∧
    (lead = [] ∨ lead = [directive]) ∧
    (lead = [directive] ↔ format ≠ .json ∧ IsExceeded limit file)

theorem isKept_dropBlankEnd {ls : List (List Char)} (h : ∃ l ∈ ls, isBlankLine l = false) :
    IsKept ls (dropBlankEnd ls) := by
  have hne : ls.rdropWhile isBlankLine ≠ [] := by
    obtain ⟨l, hl, hblank⟩ := h
    intro hnil
    simp [List.rdropWhile_eq_nil_iff.mp hnil l hl] at hblank
  have hlast := List.rdropWhile_last_not isBlankLine ls hne
  refine ⟨⟨_, _, (List.dropLast_concat_getLast hne).symm, by simpa using hlast⟩, ?_⟩
  exact ⟨ls.rtakeWhile isBlankLine, List.rdropWhile_append_rtakeWhile.symm,
    fun l hl ↦ List.mem_rtakeWhile_imp hl⟩

theorem isUnbroken_of_mem_heading {format : Format} {l : List Char} (h : l ∈ heading format) :
    IsUnbroken l := by
  have hbanner : ∀ l ∈ banner ++ [[]], '\n' ∉ l ∧ '\r' ∉ l := by decide +kernel
  cases format with
  | json => exact absurd h List.not_mem_nil
  | ts | js => exact hbanner l h

theorem isUnbroken_directive : IsUnbroken directive :=
  ⟨by decide +kernel, by decide +kernel⟩

/-- In front of the body there is a directive exactly if a line behind it is too long. -/
theorem exists_fileLines_eq (format : Format) (limit : Option Nat) (body : List Char) :
    ∃ lead, fileLines format limit body = lead ++ (heading format ++ bodyLines body) ∧
      (lead = [] ∨ lead = [directive]) ∧
      (lead = [directive] ↔
        format ≠ .json ∧ IsExceeded limit (heading format ++ bodyLines body)) := by
  have hlines : banner ++ [] :: bodyLines body = (banner ++ [[]]) ++ bodyLines body := by simp
  cases format with
  | json => exact ⟨[], rfl, .inl rfl, by simp⟩
  | ts | js =>
    rw [fileLines, hlines]
    split
    · rename_i hlong
      exact ⟨[directive], rfl, .inr rfl, by simpa [heading] using isTooLong_iff.mp hlong⟩
    · rename_i hlong
      exact ⟨[], rfl, .inl rfl, by simpa [heading] using mt isTooLong_iff.mpr hlong⟩

/-- The directive makes no file too long that was not too long without it. -/
theorem isExceeded_append_iff {limit : Option Nat} {lead ls : List (List Char)}
    (h : lead = [] ∨ lead = [directive] ∧ IsExceeded limit ls) :
    IsExceeded limit (lead ++ ls) ↔ IsExceeded limit ls := by
  constructor
  · intro hlong
    rcases h with rfl | ⟨-, h⟩
    · exact hlong
    · exact h
  · rintro ⟨n, hlimit, hn, l, hl, hlong⟩
    exact ⟨n, hlimit, hn, l, List.mem_append_right lead hl, hlong⟩

theorem isFileOf_fileLines (format : Format) (limit : Option Nat) {body : List Char}
    {ls : List (List Char)} (hcut : IsCut body ls) (hline : ∃ l ∈ ls, isBlankLine l = false) :
    IsFileOf format limit ls (fileLines format limit body) := by
  have hbody : bodyLines body = dropBlankEnd ls := by rw [bodyLines, hcut.eq_pieces]
  have hkept := isKept_dropBlankEnd hline
  obtain ⟨lead, hfile, hlead, hdirective⟩ := exists_fileLines_eq format limit body
  rw [hbody] at hfile hdirective
  rw [hfile]
  refine ⟨?_, ?_, lead, _, rfl, hkept, hlead, ?_⟩
  · intro l hl
    rcases List.mem_append.mp hl with hl | hl
    · rcases hlead with rfl | rfl
      · exact absurd hl List.not_mem_nil
      · rw [List.mem_singleton.mp hl]
        exact isUnbroken_directive
    · rcases List.mem_append.mp hl with hl | hl
      · exact isUnbroken_of_mem_heading hl
      · obtain ⟨dropped, hls, -⟩ := hkept.rest
        exact hcut.isUnbroken l (hls ▸ List.mem_append_left dropped hl)
  · obtain ⟨front, l, hfront, hblank⟩ := hkept.ends
    exact ⟨lead ++ (heading format ++ front), l, by simp [hfront], hblank⟩
  · rw [hdirective]
    refine and_congr_right fun hformat ↦ (isExceeded_append_iff ?_).symm
    rcases hlead with hlead | hlead
    · exact .inl hlead
    · exact .inr ⟨hlead, (hdirective.mp hlead).2⟩

/-! ## Documents -/

theorem isCut_flatMap {ls : List (List Char)} (h : ∀ l ∈ ls, IsUnbroken l) :
    IsCut (ls.flatMap (· ++ ['\n'])) (ls ++ [[]]) := by
  induction ls with
  | nil => exact .last isUnbroken_nil
  | cons l ls ih =>
    obtain ⟨hl, hls⟩ := List.forall_mem_cons.mp h
    rw [List.flatMap_cons, List.append_assoc, List.singleton_append]
    exact .lineFeed hl (ih hls)

/-- A document is its own file. -/
theorem wrapChars_json_wrapChars (limit : Option Nat) (body : List Char) :
    wrapChars .json limit (wrapChars .json limit body) = wrapChars .json limit body := by
  have hcut := isCut_pieces body
  let kept := bodyLines body
  have hkept : ∀ l ∈ kept, IsUnbroken l := fun l hl ↦
    hcut.isUnbroken l ((List.rdropWhile_prefix isBlankLine _).subset hl)
  by_cases hne : kept = []
  · have hempty : wrapChars .json limit body = ['\n'] := by
      rw [wrapChars, fileLines, show bodyLines body = [] from hne]
      rfl
    rw [hempty]
    rfl
  · have hfile : wrapChars .json limit body = kept.flatMap (· ++ ['\n']) := by
      rw [wrapChars, fileLines, ← flatMap_append_separator hne]
    have hlines : bodyLines (kept.flatMap (· ++ ['\n'])) = kept := by
      rw [bodyLines, ← (isCut_flatMap hkept).eq_pieces]
      exact (List.rdropWhile_concat_pos isBlankLine kept [] rfl).trans
        (List.rdropWhile_idempotent isBlankLine _)
    rw [hfile, wrapChars, fileLines, hlines, ← flatMap_append_separator hne]

/-- The lines of a body stand in its file, each ended by a line feed, without the blank ones at its
end and behind a directive and a banner at most.  A document is left as it is by another run. -/
theorem wrap_lines (format : Format) (limit : Option Nat) {body : String} {ls : List (List Char)}
    (hcut : IsCut body.toList ls) :
    ((∃ l ∈ ls, isBlankLine l = false) → ∃ file, IsFileOf format limit ls file ∧
      (wrap format limit body).toList = file.flatMap (· ++ ['\n']) ∧
      '\r' ∉ (wrap format limit body).toList) ∧
    wrap .json limit (wrap .json limit body) = wrap .json limit body := by
  constructor
  · intro hline
    have hfile := isFileOf_fileLines format limit hcut hline
    obtain ⟨front, l, hfront, -⟩ := hfile.ends
    have htext : (wrap format limit body).toList
        = (fileLines format limit body.toList).flatMap (· ++ ['\n']) := by
      rw [wrap, String.toList_ofList, wrapChars, ← flatMap_append_separator (by simp [hfront])]
    refine ⟨_, hfile, htext, fun hmem ↦ ?_⟩
    rw [htext, List.mem_flatMap] at hmem
    obtain ⟨l, hl, hmem⟩ := hmem
    rcases List.mem_append.mp hmem with hmem | hmem
    · exact (hfile.unbroken l hl).2 hmem
    · exact absurd (List.mem_singleton.mp hmem) (by decide)
  · rw [wrap, wrap, String.toList_ofList, wrapChars_json_wrapChars]

/-- A body with line breaks of all kinds and blank lines inside and at its end. -/
def mixedBody : String := "export const A = 1;\r\r\n\tlet b;\n\r\n \t\r"

def mixedLines : List (List Char) :=
  ["export const A = 1;".toList, [], "\tlet b;".toList, [], " \t".toList, []]

theorem wrap_lines_mixedBody : IsCut mixedBody.toList mixedLines ∧
    (∃ file, IsFileOf .js (some 40) mixedLines file ∧
      (wrap .js (some 40) mixedBody).toList = file.flatMap (· ++ ['\n']) ∧
      '\r' ∉ (wrap .js (some 40) mixedBody).toList) ∧
    wrap .json (some 40) (wrap .json (some 40) mixedBody) = wrap .json (some 40) mixedBody := by
  have hpieces : pieces '\n' (plainBreaks mixedBody.toList) = mixedLines := by decide +kernel
  have hcut : IsCut mixedBody.toList mixedLines := hpieces ▸ isCut_pieces mixedBody.toList
  have hline : ∃ l ∈ mixedLines, isBlankLine l = false :=
    ⟨_, List.mem_cons_self, by decide +kernel⟩
  obtain ⟨hfile, hjson⟩ := wrap_lines .js (some 40) hcut
  exact ⟨hcut, hfile hline, hjson⟩

end FrontendSync.Module.Envelope
