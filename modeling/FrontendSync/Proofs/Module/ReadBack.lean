import FrontendSync.Drift
import FrontendSync.Proofs.Module.EnumText

/-!
# Enum modules read back

The module generated for an enum is read back as what it was generated from.  The envelope adds
comments and line breaks only, the text of the record leaves its tokens, and the reader of exports
turns these into the enum and its groups again.
-/

namespace FrontendSync.Module

open EnumRecord Drift

/-! ## The envelope -/

namespace Envelope

/-- What the comment of the banner holds. -/
def bannerText : List Char :=
  "*\n * This file is generated by frontgen. Do not edit it by hand.\n".toList
    ++ " * Changes will be overwritten the next time the generator runs.\n ".toList

theorem banner_eq : banner.flatMap (· ++ ['\n']) ++ ['\n']
    = '/' :: '*' :: (bannerText ++ ['*', '/']) ++ (['\n'] ++ ['\n']) := by decide +kernel

/-- The banner and the directive are comments, so a file starts with no token. -/
theorem scans_preamble (limit : Option Nat) (body : List Char) :
    Scans (preamble limit body) [] := by
  have hdirective : Scans (directive ++ ['\n']) [] := by
    have hbody : KeepsOpen " eslint-disable max-len ".toList := .of_asterisk_notMem (by decide)
    exact (Scans.comment hbody).append scans_lineFeed
  have hbanner : Scans (banner.flatMap (· ++ ['\n']) ++ ['\n']) [] := by
    rw [banner_eq]
    exact (Scans.comment (KeepsOpen.of_slash_notMem (by decide +kernel))).append
      (scans_lineFeed.append scans_lineFeed)
  unfold preamble
  split
  · exact hdirective.append hbanner
  · exact hbanner

/-- A generated file has the tokens of the text in it. -/
theorem tokens_wrap {format : Format} (hf : format ≠ .json) (limit : Option Nat) {c : Char}
    (hb : Text.isBlank c = false) (t : List Char) :
    Token.all (stripComments (wrap format limit (String.ofList (t ++ [c])))).toList
      = scan (t ++ [c, '\n']) := by
  have hn : c ≠ '\n' := by rintro rfl; exact absurd hb (by decide)
  have hr : c ≠ '\r' := by rintro rfl; exact absurd hb (by decide)
  -- the file has plain breaks already, and nothing in front of the text is a token
  have hbody : plainBreaks (t ++ [c]) ++ ['\n'] = plainBreaks (t ++ [c, '\n']) := by
    rw [plainBreaks_append_cons hn, plainBreaks_append_cons hn, plainBreaks_cons hr,
      plainBreaks_cons hr]
    simp [plainBreaks]
  have hfile : wrapChars format limit (t ++ [c])
      = preamble limit (t ++ [c]) ++ plainBreaks (t ++ [c, '\n']) := by
    rw [wrapChars_eq hf limit hb, List.append_assoc, hbody]
  have hself {u : List Char} (hu : '\r' ∉ u) : Token.all (Strip.strip .code u) = scan u := by
    rw [scan, plainBreaks_eq_self hu]
  have hplain := carriageReturn_notMem_plainBreaks (t ++ [c, '\n'])
  rw [stripComments, String.toList_ofList, wrap, String.toList_ofList, String.toList_ofList, hfile,
    hself (by simp [carriageReturn_notMem_preamble, hplain]), scans_preamble, List.nil_append,
    ← hself hplain, scan]

end Envelope

/-! ## Values -/

namespace Export

/-- A number is read from its digits, with the sign before them. -/
theorem readsAs_numeral {t : List Char} (h : IsNumeral t) :
    ReadsAs (numeralTokens t) (Value.ofNumber (String.ofList t)) := by
  intro rest _
  cases h with
  | unsigned ht =>
    rw [numeralTokens_of_isMagnitude ht]
    rfl
  | negative ht => simp [numeralTokens, value?]

/-- A word that stands for a value of its own. -/
theorem readsAs_null : ReadsAs [.word "null"] .null := fun _ _ ↦ rfl

theorem readsAs_bool (b : Bool) : ReadsAs (literalTokens (.bool b)) (.bool b) := by
  cases b <;> exact fun _ _ ↦ rfl

/-- A literal that the reader of a module reads as the value it is written for. -/
def IsExact : Scalar → Prop
  | .int n => Decimal.fits n = true
  | .float x => x.isFinite = true ∧ Value.ofNumber x.literal = .number x.literal
  | _ => True

theorem readsAs_literal {s : Scalar} (h : IsExact s) :
    ReadsAs (literalTokens s) (scalarValue s) := by
  cases s with
  | null => exact readsAs_null
  | bool b => exact readsAs_bool b
  | int n =>
    have hread := readsAs_numeral (Decimal.isNumeral_intDigits n)
    rwa [Value.ofNumber, String.toList_ofList, Decimal.int?_intDigits h] at hread
  | float x =>
    obtain ⟨hx, hvalue⟩ := h
    have hread := readsAs_numeral (Binary64.isNumeral_literal hx)
    rw [String.ofList_toList, hvalue] at hread
    rwa [literalTokens, if_pos hx]
  | string text => exact fun _ _ ↦ rfl

/-- The words that are read as values of their own, and never as the start of a reference. -/
def literalWords : List String := ["true", "false", "null"]

theorem wordValue_of_notMem {w : String} (h : w ∉ literalWords) (ts : List Token) :
    wordValue w ts = (.reference (dotted w ts).1, (dotted w ts).2) := by
  simp only [literalWords, List.mem_cons, List.not_mem_nil, or_false, not_or] at h
  unfold wordValue
  split
  · exact absurd rfl h.1
  · exact absurd rfl h.2.1
  · exact absurd rfl h.2.2
  · rfl

theorem dotted_of_noPoint (path : String) {ts : List Token} (h : NoPoint ts) :
    dotted path ts = (path, ts) := by
  rw [dotted]
  rintro name rest rfl
  exact h rfl

/-- Two words with a point between them are read as a reference. -/
theorem readsAs_reference {e n : String} (he : Token.isWord e.toList = true)
    (hn : Token.isWord n.toList = true) (h : e ∉ literalWords) :
    ReadsAs (entryTokens e (.ofCase n)) (.reference (e ++ "." ++ n)) := by
  have htokens : entryTokens e (.ofCase n) = [.word e, .mark '.', .word n] := by
    rw [entryTokens, Token.all_dotted he (Token.not_isDigit_head?_of_isWord hn),
      Token.all_word hn, String.ofList_toList, String.ofList_toList]
  intro rest hrest
  rw [htokens]
  simp [value?, wordValue_of_notMem h, dotted, dotted_of_noPoint _ hrest]

end Export

/-! ## Statements -/

namespace Export

theorem mapM_some {α β : Type} (f : α → β) (xs : List α) :
    (xs.mapM fun x ↦ some (f x)) = some (xs.map f) := List.mapM_pure

theorem keyText?_keyToken (k : String) : keyText? (keyToken k) = some k := by
  unfold keyToken
  split <;> rfl

/-- An object constant whose values all read is the next export. -/
theorem all_constantTokens_record {α : Type} (style : Style) {name : String}
    (hname : Token.isWord name.toList = true) (entryKey : α → String)
    (valueTokens : α → List Token) (value : α → Value) (xs : List α)
    (h : ∀ x ∈ xs, ReadsAs (valueTokens x) (value x)) (rest : List Token) :
    all (constantTokens style name .record
        (xs.map fun x ↦ keyToken (entryKey x) :: .mark ':' :: valueTokens x) ++ rest)
      = ⟨name, .record, xs.map fun x ↦ (entryKey x, value x)⟩ :: all rest := by
  have hmembers := members?_rows style.trailingComma
    (assertionTokens style ++ .mark ';' :: rest) (fun x ↦ keyToken (entryKey x)) valueTokens
    entryKey (fun x ↦ some (value x)) xs fun x hx ↦
      ⟨keyText?_keyToken _, (h x hx).rowReads (by decide) (by decide)⟩
  simp only [Option.map_some, mapM_some] at hmembers
  have hconstant : constant? ((constantTokens style name .record
      (xs.map fun x ↦ keyToken (entryKey x) :: .mark ':' :: valueTokens x) ++ rest).drop 2)
        = some (⟨name, .record, xs.map fun x ↦ (entryKey x, value x)⟩, rest) := by
    simp [constantTokens, Token.all_word hname, openingMark, closingMark, constant?, hmembers,
      afterConstant_assertionTokens]
  exact all_of_constant? hconstant

/-- An array constant whose values all read is the next export. -/
theorem all_constantTokens_array {α : Type} (style : Style) {name : String}
    (hname : Token.isWord name.toList = true) (valueTokens : α → List Token) (value : α → Value)
    (xs : List α) (h : ∀ x ∈ xs, ReadsAs (valueTokens x) (value x)) (rest : List Token) :
    all (constantTokens style name .array (xs.map valueTokens) ++ rest)
      = ⟨name, .array, xs.zipIdx.map fun (x, i) ↦ (Decimal.ofNat i, value x)⟩ :: all rest := by
  have hitems := items?_rows style.trailingComma
    (assertionTokens style ++ .mark ';' :: rest) valueTokens (fun x ↦ some (value x)) xs 0
    fun x hx ↦ ⟨(h x hx).rowReads (by decide) (by decide), (h x hx).head?_ne⟩
  simp only [Option.map_some, mapM_some] at hitems
  have hconstant : constant? ((constantTokens style name .array
      (xs.map valueTokens) ++ rest).drop 2)
        = some (⟨name, .array, xs.zipIdx.map fun (x, i) ↦ (Decimal.ofNat i, value x)⟩, rest) := by
    simp [constantTokens, Token.all_word hname, openingMark, closingMark, constant?, hitems,
      afterConstant_assertionTokens]
  exact all_of_constant? hconstant

/-- The type of an enum is no constant and is passed over, also where its name is `export`. -/
theorem all_typeTokens (style : Style) {name : String} (hname : Token.isWord name.toList = true)
    (rest : List Token) : all (typeTokens style name ++ rest) = all rest := by
  unfold typeTokens
  split
  · rw [Token.all_word hname, String.ofList_toList, List.cons_append, all_export (by simp)]
    by_cases h : name = "export"
    · -- the statement is left at the name twice, and entered again
      subst h
      have hfirst (ts : List Token) : afterStatement 0 (.word "type" :: .word "export" :: ts)
          = .word "export" :: ts := by simp [afterStatement]
      have hsecond (ts : List Token) : afterStatement 0 (.mark '=' :: .word "typeof" ::
          .word "export" :: ts) = .word "export" :: ts := by
        simp [afterStatement, opens, closes]
      simp only [List.cons_append, List.nil_append, hfirst]
      rw [all_export (by simp), hsecond, all_export (by simp)]
      simp [afterStatement, opens, closes]
    · simp [afterStatement, opens, closes, h]
  · rfl

end Export

/-! ## Records -/

namespace EnumModule

/-- Lines of which the last ends with a semicolon. -/
def EndsStatement (ls : List String) : Prop := ∃ t, written ls = t ++ [';', '\n']

theorem EndsStatement.append {ls : List String} (h : EndsStatement ls) (ks : List String) :
    EndsStatement (ks ++ ls) := by
  obtain ⟨t, ht⟩ := h
  exact ⟨written ks ++ t, by rw [written_append, ht, List.append_assoc]⟩

theorem endsStatement_singleton (l : String) : EndsStatement [l ++ ";"] :=
  ⟨l.toList, by simp [written]⟩

theorem endsStatement_constant (style : Style) (name before after : String)
    (rows : List (List String × String)) :
    EndsStatement (constant style name before after rows) := by
  cases rows with
  | nil =>
    simp only [constant, ← String.append_assoc]
    exact endsStatement_singleton _
  | cons _ _ => exact (endsStatement_singleton _).append _

theorem endsStatement_lines (style : Style) (r : EnumRecord) :
    EndsStatement (lines style r) := by
  have hbefore : EndsStatement (docLines "" r.doc
      ++ constant style r.name "\x7b" "\x7d" (r.cases.map caseRow) ++ typeLines style r.name) := by
    unfold typeLines
    split
    · have htype := endsStatement_singleton
        ("export type " ++ r.name ++ " = typeof " ++ r.name ++ "[keyof typeof " ++ r.name ++ "]")
      have hlines := (htype.append [""]).append (docLines "" r.doc
        ++ constant style r.name "\x7b" "\x7d" (r.cases.map caseRow))
      simpa [String.append_assoc] using hlines
    · rw [List.append_nil]
      exact (endsStatement_constant _ _ _ _ _).append _
  unfold lines
  cases hgroups : r.groups.reverse with
  | nil =>
    rw [List.reverse_eq_nil_iff.mp hgroups, List.flatMap_nil, List.append_nil]
    exact hbefore
  | cons g gs =>
    rw [List.reverse_eq_cons_iff.mp hgroups, List.flatMap_append, ← List.append_assoc,
      List.flatMap_singleton]
    exact ((endsStatement_constant _ _ _ _ _).append [""]).append _

end EnumModule

/-- The tokens of the module generated for a record. -/
theorem tokens_enumModule {style : Style} (hf : style.format ≠ .json) (limit : Option Nat)
    {r : EnumRecord} (h : HasPlainNames r) :
    Token.all (stripComments
      (Envelope.wrap style.format limit (EnumModule.text style r))).toList
      = recordTokens style r := by
  obtain ⟨t, ht⟩ := EnumModule.endsStatement_lines style r
  have hne : EnumModule.lines style r ≠ [] := by
    intro hnil
    simp [hnil, written] at ht
  have htext : EnumModule.text style r = String.ofList (t ++ [';']) := by
    have hlines := (unlines_toList hne).trans ht
    have hsplit : t ++ [';', '\n'] = t ++ [';'] ++ ['\n'] := by simp
    rw [hsplit, List.append_left_inj] at hlines
    exact String.toList_injective (by rw [EnumModule.text, hlines, String.toList_ofList])
  have hscan := scans_lines style h []
  rw [List.append_nil] at hscan
  rw [htext, Envelope.tokens_wrap hf limit (by decide), ← ht, hscan]
  simp [scan, Envelope.plainBreaks, Strip.strip, Token.all]

namespace Export

/-- The exports a record stands for: the enum with its cases, and each group. -/
def ofRecord (r : EnumRecord) : List Export :=
  ⟨r.name, .record, caseEntries r⟩ ::
    r.groups.map fun g ↦ ⟨g.name, g.shape, groupEntries r.name g⟩

/-- The keys of an array are its positions. -/
def HasPositions (g : Group) : Prop :=
  g.shape = .array → g.entries.map Prod.fst = (List.range g.entries.length).map Decimal.ofNat

instance (g : Group) : Decidable (HasPositions g) := inferInstanceAs (Decidable (_ → _))

/-- Positions are the keys of entries that are numbered from zero on. -/
theorem map_zipIdx_eq {entries : List (String × Entry)} {value : Entry → Value}
    (h : entries.map Prod.fst = (List.range entries.length).map Decimal.ofNat) :
    entries.zipIdx.map (fun (e, i) ↦ (Decimal.ofNat i, value e.2))
      = entries.map fun e ↦ (e.1, value e.2) := by
  refine List.ext_getElem (by simp) fun i hi hi' ↦ ?_
  have hlt : i < entries.length := by simpa using hi'
  have hkey : (entries.map Prod.fst)[i]? = some (Decimal.ofNat i) := by rw [h]; simp [hlt]
  rw [List.getElem?_map, List.getElem?_eq_getElem hlt, Option.map_some, Option.some.injEq] at hkey
  simp [hkey]

/-- A group whose values all read is the next export. -/
theorem all_groupTokens (style : Style) {enumName : String} {g : Group}
    (hname : Token.isWord g.name.toList = true) (hkeys : HasPositions g)
    (h : ∀ e ∈ g.entries, ReadsAs (entryTokens enumName e.2) (entryValue enumName e.2))
    (rest : List Token) :
    all (groupTokens style enumName g ++ rest)
      = ⟨g.name, g.shape, groupEntries enumName g⟩ :: all rest := by
  obtain ⟨name, shape, entries⟩ := g
  cases shape with
  | record =>
    exact all_constantTokens_record style hname Prod.fst (fun e ↦ entryTokens enumName e.2)
      (fun e ↦ entryValue enumName e.2) entries h rest
  | array =>
    have hall := all_constantTokens_array style hname (fun e ↦ entryTokens enumName e.2)
      (fun e ↦ entryValue enumName e.2) entries h rest
    rw [map_zipIdx_eq (hkeys rfl)] at hall
    exact hall

/-- The tokens of a record whose values all read are read as the record. -/
theorem all_recordTokens (style : Style) {r : EnumRecord}
    (hname : Token.isWord r.name.toList = true)
    (hcases : ∀ c ∈ r.cases, IsExact c.value)
    (hgroups : ∀ g ∈ r.groups, Token.isWord g.name.toList = true ∧ HasPositions g ∧
      ∀ e ∈ g.entries, ReadsAs (entryTokens r.name e.2) (entryValue r.name e.2)) :
    all (recordTokens style r) = ofRecord r := by
  have hall : ∀ gs : List Group, (∀ g ∈ gs, g ∈ r.groups) →
      all (gs.flatMap (groupTokens style r.name))
        = gs.map fun g ↦ ⟨g.name, g.shape, groupEntries r.name g⟩ := by
    intro gs hgs
    induction gs with
    | nil => simp [all]
    | cons g gs ih =>
      obtain ⟨hg, hgs⟩ := List.forall_mem_cons.mp hgs
      obtain ⟨hword, hkeys, hreads⟩ := hgroups g hg
      rw [List.flatMap_cons, all_groupTokens style hword hkeys hreads, ih hgs, List.map_cons]
  have hcase := all_constantTokens_record style hname Case.name (fun c ↦ literalTokens c.value)
    (fun c ↦ scalarValue c.value) r.cases fun c hc ↦ readsAs_literal (hcases c hc)
  rw [recordTokens, ofRecord, ← hall r.groups fun _ ↦ id]
  exact (hcase _).trans (by rw [all_typeTokens style hname]; rfl)

end Export

/-- Whether a literal is no float and, if it is an integer, fits the integers of the source. -/
def isSimple : Scalar → Bool
  | .int n => Decimal.fits n
  | .float _ => false
  | _ => true

theorem isExact_of_isSimple {s : Scalar} (h : isSimple s = true) : Export.IsExact s := by
  cases s with
  | int n => exact h
  | float x => exact absurd h (by simp [isSimple])
  | null | bool _ | string _ => trivial

/-- Whether a value of a group is a case whose name is a word, or a simple literal. -/
def isSimpleEntry : Entry → Bool
  | .ofCase name => Token.isWord name.toList
  | .ofScalar s => isSimple s

/-- A record whose module reads back: what stands in it without quotes is a word, and the word for
the enum can start a reference. -/
structure IsReadable (r : EnumRecord) : Prop where
  name : Token.isWord r.name.toList = true
  referable : r.name ∉ Export.literalWords
  cases : ∀ c ∈ r.cases, isSimple c.value = true
  groups : ∀ g ∈ r.groups, Token.isWord g.name.toList = true ∧ Export.HasPositions g
  entries : ∀ g ∈ r.groups, ∀ e ∈ g.entries, isSimpleEntry e.2 = true

namespace IsReadable

variable {r : EnumRecord} (h : IsReadable r)
include h

theorem hasPlainNames : HasPlainNames r where
  name := isPlainName_of_isWord h.name
  groups := fun g hg ↦ isPlainName_of_isWord (h.groups g hg).1
  references := fun g hg e he n hn ↦ by
    have hword := h.entries g hg e he
    rw [hn] at hword
    exact isPlainName_of_isWord hword

/-- Every value of a group reads as the value it is written for. -/
theorem readsAs_entry {g : Group} (hg : g ∈ r.groups) {e : String × Entry} (he : e ∈ g.entries) :
    Export.ReadsAs (entryTokens r.name e.2) (entryValue r.name e.2) := by
  have hsimple := h.entries g hg e he
  obtain ⟨k, v⟩ := e
  cases v with
  | ofScalar s => exact Export.readsAs_literal (isExact_of_isSimple hsimple)
  | ofCase n => exact Export.readsAs_reference h.name hsimple h.referable

end IsReadable

/-- A generated module reads back as its record, whatever its strings, keys and comments hold:
the enum comes first, with a member for each case, and the groups follow in order. -/
theorem ofSource_enumModule {style : Style} (hf : style.format ≠ .json) (limit : Option Nat)
    {r : EnumRecord} (h : IsReadable r) :
    Export.ofSource (Envelope.wrap style.format limit (EnumModule.text style r))
      = ⟨r.name, .record, caseEntries r⟩ ::
        r.groups.map fun g ↦ ⟨g.name, g.shape, groupEntries r.name g⟩ := by
  rw [Export.ofSource, tokens_enumModule hf limit h.hasPlainNames]
  refine Export.all_recordTokens style h.name (fun c hc ↦ isExact_of_isSimple (h.cases c hc)) ?_
  intro g hg
  obtain ⟨hword, hpositions⟩ := h.groups g hg
  exact ⟨hword, hpositions, fun _ ↦ h.readsAs_entry hg⟩

/-- A record whose strings, keys and documentation look like comments, quotes and brackets. -/
def trickyRecord : EnumRecord where
  name := "export"
  qualified := "App\\export"
  space := some "App"
  doc := some "closes */ early\r\n// and 'goes' on"
  cases := [⟨"A", .string "it's \"two\" \\ // lines\n", some "/* \" */"⟩,
    ⟨"B*/", .string "it's", none⟩, ⟨"C", .int (-9223372036854775808), some ""⟩]
  groups := [⟨"const", .array, [("0", .ofCase "A"), ("1", .ofScalar .null)]⟩,
    ⟨"Länge_1", .record, [("*/", .ofScalar (.bool true)), ("'\\", .ofCase "C")]⟩,
    ⟨"$", .array, []⟩]
  path := ⟨"export.ts"⟩

theorem ofSource_enumModule_trickyRecord :
    IsReadable trickyRecord ∧
      Export.ofSource (Envelope.wrap .ts (some 20) (EnumModule.text ⟨.ts, true⟩ trickyRecord))
        = [⟨"export", .record, [("A", .string "it's \"two\" \\ // lines\n"),
            ("B*/", .string "it's"), ("C", .number "-9223372036854775808")]⟩,
          ⟨"const", .array, [("0", .reference "export.A"), ("1", .null)]⟩,
          ⟨"Länge_1", .record, [("*/", .bool true), ("'\\", .reference "export.C")]⟩,
          ⟨"$", .array, []⟩] := by
  have h : IsReadable trickyRecord := by
    constructor <;> decide +kernel
  have hf : (⟨.ts, true⟩ : Style).format ≠ .json := by decide
  exact ⟨h, ofSource_enumModule hf (some 20) h⟩

end FrontendSync.Module
