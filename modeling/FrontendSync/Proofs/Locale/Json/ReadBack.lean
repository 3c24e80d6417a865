import FrontendSync.Locale.Bundle
import FrontendSync.Module.LocaleModule
import FrontendSync.Proofs.Locale.Json.Text
import FrontendSync.Proofs.Locale.Tree
import FrontendSync.Proofs.Module.Envelope
import FrontendSync.Proofs.Number.Numeral
import FrontendSync.Proofs.Ordered

/-!
# JSON documents read back

A tree without floating point numbers is read back from its document exactly if its containers are
not nested deeper than the reader goes.  So a bundle that is written as JSON is the data of the
locale file it makes.
-/

namespace FrontendSync.Json

open Tree

/-- What follows a value in a document: a comma or the end of the line. -/
def Breaks (rest : List Char) : Prop := ∃ c s, rest = c :: s ∧ (c = ',' ∨ c = '\n')

theorem breaks_comma (s : List Char) : Breaks (',' :: s) := ⟨_, s, rfl, .inl rfl⟩

theorem breaks_lineFeed (s : List Char) : Breaks ('\n' :: s) := ⟨_, s, rfl, .inr rfl⟩

/-! ## Numbers -/

theorem takeWhile_digits_append (n : Nat) {rest : List Char} (h : Breaks rest) :
    (Decimal.digits n ++ rest).takeWhile Char.isDigit = Decimal.digits n := by
  obtain ⟨c, s, rfl, hc⟩ := h
  have hstop : c.isDigit = false := by rcases hc with rfl | rfl <;> decide
  rw [List.takeWhile_append_of_pos fun _ ↦ Decimal.isDigit_of_mem_digits]
  simp [hstop]

theorem tree?_whole {negative : Bool} {n : Nat}
    (hfits : Decimal.fits (if negative then -(n : Int) else n) = true)
    (hzero : negative = true → n ≠ 0) :
    (Parts.mk negative (Decimal.digits n) none none).tree?
      = some (.int (if negative then -(n : Int) else n)) := by
  cases negative with
  | false =>
    have hfits : Decimal.fits n = true := hfits
    simp [Parts.tree?, Decimal.value_digits, hfits]
  | true =>
    have hfits : Decimal.fits (-(n : Int)) = true := hfits
    simp [Parts.tree?, Decimal.value_digits, hfits, hzero rfl]

/-- What a number is read from, its sign taken off. -/
def unsigned? (negative : Bool) (s : List Char) : Option (Tree × List Char) :=
  let whole := s.takeWhile Char.isDigit
  if whole = [] ∨ (whole.head? = some '0' ∧ whole ≠ ['0']) then none
  else do
    let (fraction, s) ← fraction? (s.drop whole.length)
    let (exponent, s) ← exponentPart? s
    let t ← (Parts.mk negative whole fraction exponent).tree?
    return (t, s)

theorem number?_minus (s : List Char) : number? ('-' :: s) = unsigned? true s := rfl

theorem number?_of_head {s : List Char} (h : s.head? ≠ some '-') :
    number? s = unsigned? false s := by
  cases s with
  | nil => rfl
  | cons c s =>
    have hc : c ≠ '-' := by
      rintro rfl
      exact h rfl
    unfold number?
    split
    rename_i negative unread hsplit
    obtain ⟨rfl, rfl⟩ : false = negative ∧ c :: s = unread := by simpa [hc] using hsplit
    rfl

/-- Digits are a whole number, with the sign before them. -/
theorem unsigned?_digits (negative : Bool) (n : Nat)
    (hfits : Decimal.fits (if negative then -(n : Int) else n) = true)
    (hzero : negative = true → n ≠ 0) {rest : List Char} (hrest : Breaks rest) :
    unsigned? negative (Decimal.digits n ++ rest)
      = some (.int (if negative then -(n : Int) else n), rest) := by
  have hlead : ¬(Decimal.digits n = [] ∨
      (Decimal.digits n).head? = some '0' ∧ Decimal.digits n ≠ ['0']) := by
    rintro (hnil | ⟨hhead, hne⟩)
    · exact Decimal.digits_ne_nil n hnil
    · rcases Nat.eq_zero_or_pos n with rfl | hpos
      · exact hne rfl
      · exact Decimal.head?_digits_ne hpos hhead
  have hfraction : fraction? rest = some (none, rest) := by
    obtain ⟨c, s, rfl, rfl | rfl⟩ := hrest <;> rfl
  have hexponent : exponentPart? rest = some (none, rest) := by
    obtain ⟨c, s, rfl, rfl | rfl⟩ := hrest <;> rfl
  simp only [unsigned?, takeWhile_digits_append n hrest, if_neg hlead, List.drop_left, hfraction,
    Option.bind_eq_bind, Option.bind_some, hexponent, tree?_whole hfits hzero, Option.pure_def]

theorem head?_digits_append_ne (n : Nat) (rest : List Char) :
    (Decimal.digits n ++ rest).head? ≠ some '-' := by
  obtain ⟨d, ds, hds⟩ := List.exists_cons_of_ne_nil (Decimal.digits_ne_nil n)
  have hd : d.isDigit = true :=
    Decimal.isDigit_of_mem_digits (hds ▸ List.mem_cons_self : d ∈ Decimal.digits n)
  rw [hds]
  rintro h
  obtain rfl : d = '-' := Option.some.inj h
  exact absurd hd (by decide)

theorem number?_intDigits {n : Int} (hn : Decimal.fits n = true) {rest : List Char}
    (hrest : Breaks rest) : number? (Decimal.intDigits n ++ rest) = some (.int n, rest) := by
  cases n with
  | ofNat n =>
    have hread := unsigned?_digits false n hn (fun h ↦ Bool.noConfusion h) hrest
    exact (number?_of_head (head?_digits_append_ne n rest)).trans hread
  | negSucc n =>
    have hread := unsigned?_digits true (n + 1) hn (fun _ ↦ Nat.succ_ne_zero n) hrest
    exact (number?_minus _).trans hread

/-! ## Containers -/

theorem skip_cons {c : Char} (h : isBlank c = false) (s : List Char) : skip (c :: s) = c :: s := by
  simp [skip, h]

theorem skip_lineFeed_indent (depth : Nat) (s : List Char) :
    skip ('\n' :: indent depth ++ s) = skip s := by
  have hblank : ∀ c ∈ '\n' :: indent depth, isBlank c = true := by
    intro c hc
    rcases List.mem_cons.mp hc with rfl | hc
    · rfl
    · obtain rfl := List.eq_of_mem_replicate hc
      rfl
  exact List.dropWhile_append_of_pos hblank

theorem separated_cons (separator t : List Char) (ts : List (List Char)) :
    separated separator (t :: ts) = t ++ ts.flatMap (separator ++ ·) := by
  induction ts generalizing t with
  | nil => simp [separated]
  | cons u us ih =>
    rw [separated, ih]
    · simp
    · exact List.cons_ne_nil u us

section Container

variable {α : Type} {read : List Char → Option (α × List Char)} {close : Char}
  {text : α → List Char} {p : α → Prop} [DecidablePred p]

/-- A text that starts with neither a blank nor the given character. -/
def Starts (close : Char) (t : List Char) : Prop :=
  ∃ c s, t = c :: s ∧ isBlank c = false ∧ c ≠ close

theorem Starts.skip_append {t : List Char} (h : Starts close t) (s : List Char) :
    skip (t ++ s) = t ++ s := by
  obtain ⟨c, u, rfl, hc, -⟩ := h
  exact skip_cons hc _

/-- The lines of a container behind the first item. -/
def rows (depth : Nat) (close : Char) (text : α → List Char) (xs : List α) (rest : List Char) :
    List Char :=
  (xs.flatMap fun x ↦ ',' :: '\n' :: indent (depth + 1) ++ text x)
    ++ '\n' :: indent depth ++ close :: rest

theorem breaks_rows (depth : Nat) (close : Char) (text : α → List Char) (xs : List α)
    (rest : List Char) : Breaks (rows depth close text xs rest) := by
  cases xs with
  | nil => exact breaks_lineFeed _
  | cons x xs => exact breaks_comma _

theorem skip_rows_nil (hclose : isBlank close = false) (depth : Nat) (text : α → List Char)
    (rest : List Char) : skip (rows depth close text [] rest) = close :: rest := by
  rw [rows, List.flatMap_nil, List.nil_append, skip_lineFeed_indent, skip_cons hclose]

theorem rows_cons (depth : Nat) (close : Char) (text : α → List Char) (x : α) (xs : List α)
    (rest : List Char) : rows depth close text (x :: xs) rest
      = ',' :: ('\n' :: indent (depth + 1) ++ (text x ++ rows depth close text xs rest)) := by
  simp [rows]

theorem items?_comma (hcomma : close ≠ ',') {v : α} {s rest : List Char}
    (h : read s = some (v, ',' :: rest)) (hlt : rest.length < s.length) :
    items? read close s
      = (items? read close (skip rest)).map fun (vs, rest) ↦ (v :: vs, rest) := by
  have hskip : skip (',' :: rest) = ',' :: rest := skip_cons (by decide) rest
  rw [items?, h]
  simp only [hskip, if_neg hcomma.symm, if_true, if_pos hlt]

/-- The items of a container are read line by line, if each of them is read. -/
theorem items?_rows (hclose : isBlank close = false) (hcomma : close ≠ ',') (depth : Nat) {x : α}
    {xs : List α}
    (hread : ∀ y ∈ x :: xs, ∀ rest, Breaks rest →
      read (text y ++ rest) = if p y then some (y, rest) else none)
    (hstart : ∀ y ∈ x :: xs, Starts close (text y)) (rest : List Char) :
    items? read close (text x ++ rows depth close text xs rest)
      = if ∀ y ∈ x :: xs, p y then some (x :: xs, rest) else none := by
  induction xs generalizing x with
  | nil =>
    rw [items?, hread x List.mem_cons_self _ (breaks_rows ..)]
    by_cases hx : p x
    · simp [hx, skip_rows_nil hclose]
    · simp [hx]
  | cons y ys ih =>
    have hys := ih (fun z hz ↦ hread z (List.mem_cons_of_mem x hz))
      fun z hz ↦ hstart z (List.mem_cons_of_mem x hz)
    have hnext : skip ('\n' :: indent (depth + 1) ++ (text y ++ rows depth close text ys rest))
        = text y ++ rows depth close text ys rest := by
      rw [skip_lineFeed_indent, (hstart y (by simp)).skip_append]
    have hfirst := hread x List.mem_cons_self _ (breaks_rows depth close text (y :: ys) rest)
    by_cases hx : p x
    · rw [if_pos hx, rows_cons] at hfirst
      rw [rows_cons, items?_comma hcomma hfirst (by simp; omega), hnext, hys]
      by_cases hall : ∀ z ∈ y :: ys, p z
      · rw [if_pos hall, if_pos (List.forall_mem_cons.mpr ⟨hx, hall⟩)]
        rfl
      · rw [if_neg hall, if_neg fun h ↦ hall (List.forall_mem_cons.mp h).2]
        rfl
    · rw [items?, hfirst]
      simp [hx]

theorem container?_block (hclose : isBlank close = false) (hcomma : close ≠ ',') (depth : Nat)
    {xs : List α}
    (hread : ∀ y ∈ xs, ∀ rest, Breaks rest →
      read (text y ++ rest) = if p y then some (y, rest) else none)
    (hstart : ∀ y ∈ xs, Starts close (text y)) (opening : Char) (rest : List Char) :
    ∃ s, block depth opening close (xs.map text) ++ rest = opening :: s ∧
      container? read close s = if ∀ y ∈ xs, p y then some (xs, rest) else none := by
  cases xs with
  | nil => exact ⟨close :: rest, rfl, by simp [container?, skip_cons hclose]⟩
  | cons x xs =>
    obtain ⟨c, s, hx, hc, hne⟩ := hstart x List.mem_cons_self
    refine ⟨'\n' :: indent (depth + 1) ++ (text x ++ rows depth close text xs rest), ?_, ?_⟩
    · simp [block, separated_cons, rows, List.flatMap_map]
    · rw [container?, skip_lineFeed_indent, (hstart x List.mem_cons_self).skip_append,
        ← items?_rows hclose hcomma depth hread hstart rest, hx]
      simp [hne]

end Container

/-! ## Values -/

theorem string?_quoted (s : String) (rest : List Char) :
    string? (quoted s ++ rest) = some (s, rest) := by
  have hbound : s.toList.length < (s.toList.flatMap escapeChar ++ '"' :: rest).length + 1 := by
    have hlength := length_le_length_flatMap_escapeChar s.toList
    rw [List.length_append]
    omega
  have hquoted : quoted s ++ rest = '"' :: (s.toList.flatMap escapeChar ++ '"' :: rest) := by
    simp [quoted]
  rw [hquoted, string?, unquote?_flatMap_escapeChar hbound]
  simp

theorem prettyItems_eq (depth : Nat) (ts : List Tree) :
    prettyItems depth ts = ts.map (pretty depth) := by
  induction ts with
  | nil => rfl
  | cons t ts ih => rw [prettyItems, ih, List.map_cons]

/-- The line of a member. -/
def prettyMember (depth : Nat) (m : String × Tree) : List Char :=
  quoted m.1 ++ ':' :: ' ' :: pretty depth m.2

theorem prettyMembers_eq (depth : Nat) (ms : Members) :
    prettyMembers depth ms = ms.map (prettyMember depth) := by
  induction ms with
  | nil => rfl
  | cons m ms ih => rw [prettyMembers, ih, List.map_cons, prettyMember]

theorem starts_quoted {close : Char} (hc : close ≠ '"') (s : String) (t : List Char) :
    Starts close (quoted s ++ t) := ⟨'"', _, rfl, by decide, hc.symm⟩

/-- What no number starts with is not its first character. -/
theorem ne_of_digit_or_minus {c d : Char} (h : c.isDigit = true ∨ c = '-')
    (hd : ¬(d.isDigit = true ∨ d = '-')) : c ≠ d := by
  rintro rfl
  exact hd h

theorem isBlank_of_digit_or_minus {c : Char} (h : c.isDigit = true ∨ c = '-') :
    isBlank c = false := by
  simp [isBlank, ne_of_digit_or_minus h (d := ' ') (by decide),
    ne_of_digit_or_minus h (d := '\n') (by decide),
    ne_of_digit_or_minus h (d := '\t') (by decide),
    ne_of_digit_or_minus h (d := '\r') (by decide)]

theorem exists_block_eq (depth : Nat) (opening closing : Char) (ts : List (List Char)) :
    ∃ s, block depth opening closing ts = opening :: s := by
  cases ts with
  | nil => exact ⟨_, rfl⟩
  | cons t ts => exact ⟨_, rfl⟩

theorem starts_pretty {t : Tree} (h : FloatFree t) (depth : Nat) : Starts ']' (pretty depth t) := by
  cases h with
  | null => exact ⟨'n', _, rfl, by decide, by decide⟩
  | bool b => cases b <;> exact ⟨_, _, rfl, by decide, by decide⟩
  | int n =>
    obtain ⟨c, s, hs, hc⟩ := (Decimal.isNumeral_intDigits n).exists_cons
    exact ⟨c, s, hs, isBlank_of_digit_or_minus hc, ne_of_digit_or_minus hc (by decide)⟩
  | text s => exact ⟨'"', _, rfl, by decide, by decide⟩
  | list =>
    obtain ⟨s, hs⟩ := exists_block_eq depth '[' ']' _
    exact ⟨'[', s, hs, by decide, by decide⟩
  | map =>
    obtain ⟨s, hs⟩ := exists_block_eq depth '\x7b' '\x7d' _
    exact ⟨'\x7b', s, hs, by decide, by decide⟩

theorem member?_prettyMember {m : String × Tree} {depth : Nat}
    (h : Starts ']' (pretty depth m.2)) (value : List Char → Option (Tree × List Char))
    (rest : List Char) : member? value (prettyMember depth m ++ rest)
      = (value (pretty depth m.2 ++ rest)).map fun (t, s) ↦ ((m.1, t), s) := by
  have hcolon : skip (':' :: ' ' :: (pretty depth m.2 ++ rest))
      = ':' :: ' ' :: (pretty depth m.2 ++ rest) := skip_cons (by decide) _
  have hspace : skip (' ' :: (pretty depth m.2 ++ rest)) = pretty depth m.2 ++ rest :=
    h.skip_append rest
  have hline : prettyMember depth m ++ rest
      = quoted m.1 ++ ':' :: ' ' :: (pretty depth m.2 ++ rest) := by
    simp [prettyMember]
  rw [member?, hline, string?_quoted]
  simp only [Option.bind_eq_bind, Option.bind_some, hcolon, hspace, Option.pure_def]
  cases value (pretty depth m.2 ++ rest) <;> rfl

theorem value?_of_digit_or_minus {c : Char} (h : c.isDigit = true ∨ c = '-') (limit : Nat)
    (s : List Char) : value? limit (c :: s) = number? (c :: s) := by
  have hliteral : literal? (c :: s) = none := by
    simp [literal?, literals, Text.stripStart?,
      (ne_of_digit_or_minus h (d := 'n') (by decide)).symm,
      (ne_of_digit_or_minus h (d := 't') (by decide)).symm,
      (ne_of_digit_or_minus h (d := 'f') (by decide)).symm]
  rw [value?, hliteral, Option.none_or]
  · exact fun _ hc ↦ absurd (List.cons.inj hc).1 (ne_of_digit_or_minus h (by decide))
  · exact fun _ hc ↦ absurd (List.cons.inj hc).1 (ne_of_digit_or_minus h (by decide))
  · exact fun _ hc ↦ absurd (List.cons.inj hc).1 (ne_of_digit_or_minus h (by decide))

/-- A tree is read back unless its containers are nested deeper than the limit. -/
theorem value?_pretty {t : Tree} (hfree : FloatFree t) (hwell : WellFormed t) (depth limit : Nat)
    {rest : List Char} (hrest : Breaks rest) :
    value? limit (pretty depth t ++ rest)
      = if t.nesting ≤ limit then some (t, rest) else none := by
  induction hfree generalizing depth limit rest with
  | null => cases limit <;> rfl
  | bool b => cases limit <;> cases b <;> rfl
  | int n =>
    cases hwell with | int hfits
    obtain ⟨c, s, hs, hc⟩ := (Decimal.isNumeral_intDigits n).exists_cons
    have hnumber := number?_intDigits hfits hrest
    rw [hs, List.cons_append] at hnumber
    rw [pretty, hs, List.cons_append, value?_of_digit_or_minus hc, hnumber]
    rfl
  | text s =>
    have hstring := string?_quoted s rest
    rw [quoted, List.cons_append, List.cons_append] at hstring
    rw [pretty, quoted, List.cons_append, List.cons_append, value?, hstring]
    rfl
  | @list ts hts ih =>
    cases hwell with | list hwell
    rw [pretty, prettyItems_eq]
    cases limit with
    | zero =>
      obtain ⟨s, hs⟩ := exists_block_eq depth '[' ']' (ts.map (pretty (depth + 1)))
      rw [hs]
      rfl
    | succ limit =>
      have hread (t : Tree) (ht : t ∈ ts) (rest : List Char) (hrest : Breaks rest) :
          value? limit (pretty (depth + 1) t ++ rest)
            = if t.nesting ≤ limit then some (t, rest) else none :=
        ih t ht (hwell t ht) (depth + 1) limit hrest
      obtain ⟨s, hs, hitems⟩ := container?_block (by decide) (by decide) depth hread
        (fun t ht ↦ starts_pretty (hts t ht) (depth + 1)) '[' rest
      rw [hs, value?, hitems]
      simp only [Tree.nesting, Nat.add_le_add_iff_right, itemNesting_le_iff]
      split <;> rfl
  | @map ms hms ih =>
    cases hwell with | map hnodup hwell
    rw [pretty, prettyMembers_eq]
    cases limit with
    | zero =>
      obtain ⟨s, hs⟩ := exists_block_eq depth '\x7b' '\x7d' (ms.map (prettyMember (depth + 1)))
      rw [hs]
      rfl
    | succ limit =>
      have hread (m : String × Tree) (hm : m ∈ ms) (rest : List Char) (hrest : Breaks rest) :
          member? (value? limit) (prettyMember (depth + 1) m ++ rest)
            = if m.2.nesting ≤ limit then some (m, rest) else none := by
        rw [member?_prettyMember (starts_pretty (hms m hm) (depth + 1)),
          ih m hm (hwell m hm) (depth + 1) limit hrest]
        split <;> rfl
      have hstart (m : String × Tree) (_ : m ∈ ms) : Starts '\x7d' (prettyMember (depth + 1) m) :=
        starts_quoted (by decide) m.1 _
      obtain ⟨s, hs, hmembers⟩ :=
        container?_block (by decide) (by decide) depth hread hstart '\x7b' rest
      rw [hs, value?, hmembers]
      simp only [Tree.nesting, Nat.add_le_add_iff_right, memberNesting_le_iff]
      split
      · simp [Ordered.ofList_of_nodup hnodup]
      · rfl

/-! ## Line breaks -/

theorem mem_separated {separator : List Char} {ts : List (List Char)} {c : Char}
    (h : c ∈ separated separator ts) : c ∈ separator ∨ ∃ t ∈ ts, c ∈ t := by
  cases ts with
  | nil => exact absurd h List.not_mem_nil
  | cons t ts =>
    rw [separated_cons, List.mem_append, List.mem_flatMap] at h
    obtain h | ⟨u, hu, h⟩ := h
    · exact .inr ⟨t, List.mem_cons_self, h⟩
    · exact (List.mem_append.mp h).imp_right fun h ↦ ⟨u, List.mem_cons_of_mem t hu, h⟩

theorem carriageReturn_notMem_block {depth : Nat} {opening closing : Char}
    (hopening : opening ≠ '\r') (hclosing : closing ≠ '\r') {ts : List (List Char)}
    (h : ∀ t ∈ ts, '\r' ∉ t) : '\r' ∉ block depth opening closing ts := by
  have hindent (n : Nat) : '\r' ∉ indent n := fun hr ↦
    absurd (List.eq_of_mem_replicate hr) (by decide)
  have hitems : '\r' ∉ separated [',', '\n'] (ts.map (indent (depth + 1) ++ ·)) := by
    intro hr
    obtain hr | ⟨u, hu, hr⟩ := mem_separated hr
    · exact absurd hr (by decide)
    · obtain ⟨t, ht, rfl⟩ := List.mem_map.mp hu
      exact (List.mem_append.mp hr).elim (hindent _) (h t ht)
  cases ts with
  | nil => simp [block, hopening.symm, hclosing.symm]
  | cons t ts =>
    simp only [block, List.mem_cons, List.mem_append, List.not_mem_nil, not_or]
    exact ⟨⟨⟨hopening.symm, by decide, hitems⟩, by decide, hindent depth⟩, hclosing.symm, not_false⟩

theorem carriageReturn_notMem_quoted (s : String) : '\r' ∉ quoted s := fun h ↦
  absurd (le_toNat_of_mem_quoted h) (by decide)

theorem carriageReturn_notMem_pretty {t : Tree} (h : FloatFree t) (depth : Nat) :
    '\r' ∉ pretty depth t := by
  induction h generalizing depth with
  | null => exact of_decide_eq_true rfl
  | bool b => cases b <;> exact of_decide_eq_true rfl
  | int n =>
    intro hr
    exact absurd ((Decimal.isNumeral_intDigits n).mem hr) (by decide)
  | text s => exact carriageReturn_notMem_quoted s
  | @list ts _ ih =>
    rw [pretty, prettyItems_eq]
    refine carriageReturn_notMem_block (by decide) (by decide) ?_
    rw [List.forall_mem_map]
    exact fun t ht ↦ ih t ht (depth + 1)
  | @map ms _ ih =>
    rw [pretty, prettyMembers_eq]
    refine carriageReturn_notMem_block (by decide) (by decide) ?_
    rw [List.forall_mem_map]
    intro m hm
    simp only [prettyMember, List.mem_append, List.mem_cons, not_or]
    exact ⟨carriageReturn_notMem_quoted m.1, by decide, by decide, ih m hm (depth + 1)⟩

theorem exists_block_eq_append (depth : Nat) (opening closing : Char) (ts : List (List Char)) :
    ∃ s, block depth opening closing ts = s ++ [closing] := by
  cases ts with
  | nil => exact ⟨[opening], rfl⟩
  | cons t ts => exact ⟨_, rfl⟩

/-! ## Files -/

/-- The document of a map is read back as the map, unless it is nested too deep to be read. -/
theorem parse?_pretty_map {ms : Members} (hfree : FloatFree (.map ms))
    (hwell : WellFormed (.map ms)) :
    parse? (pretty 0 (.map ms) ++ ['\n'])
      = if (Tree.map ms).nesting ≤ maxDepth then some (.map ms) else none := by
  have hstart := starts_pretty hfree 0
  rw [parse?, hstart.skip_append, value?_pretty hfree hwell 0 maxDepth (breaks_lineFeed [])]
  by_cases h : (Tree.map ms).nesting ≤ maxDepth
  · simp only [if_pos h]
    rfl
  · simp only [if_neg h]

end FrontendSync.Json

namespace FrontendSync.Locale

open Tree Module

/-- A locale file of format JSON is read back as the data it was made from.  Only data that is
nested deeper than the reader goes is refused. -/
theorem jsonMembers_wrap_text {style : Style} (hformat : style.format = .json) (locale : String)
    {data : Members} (hfree : FloatFree (.map data)) (hwell : WellFormed (.map data))
    (limit : Option Nat) :
    jsonMembers (Envelope.wrap style.format limit (LocaleModule.text style locale data))
      = if (Tree.map data).nesting ≤ Json.maxDepth then .ok data else .error .notJson := by
  obtain ⟨s, hs⟩ := Json.exists_block_eq_append 0 '\x7b' '\x7d' (Json.prettyMembers 1 data)
  have hbody : Json.pretty 0 (.map data) = s ++ ['\x7d'] := hs
  have hfile : (Envelope.wrap style.format limit (LocaleModule.text style locale data)).toList
      = Json.pretty 0 (.map data) ++ ['\n'] := by
    rw [LocaleModule.text, hformat, Envelope.wrap, String.toList_ofList, String.toList_ofList,
      hbody, Envelope.wrapChars_json limit (by decide), ← hbody,
      plainBreaks_eq_self (Json.carriageReturn_notMem_pretty hfree 0)]
  rw [jsonMembers, hfile, Json.parse?_pretty_map hfree hwell]
  by_cases h : (Tree.map data).nesting ≤ Json.maxDepth
  · simp only [if_pos h, members?]
  · simp only [if_neg h]

/-- Data with line breaks of all kinds, control characters, marks of the format in keys and texts,
and containers with nothing in them. -/
def trickyData : Members :=
  [("", .map []), ("a\r\nb\x00", .list [.null, .list [], .int (-9223372036854775808), .int 0]),
    ("\"\\,\n\x7d", .map [("a", .text "\x7b\r \t/ü"), ("", .bool true)]), ("a", .text "\r")]

theorem jsonMembers_wrap_text_trickyData :
    FloatFree (.map trickyData) ∧ WellFormed (.map trickyData) ∧
      jsonMembers (Envelope.wrap .json (some 80) (LocaleModule.text ⟨.json, true⟩ "de" trickyData))
        = .ok trickyData := by
  have hfree : FloatFree (.map trickyData) := by simp [trickyData]
  have hwell : WellFormed (.map trickyData) := by
    simp only [trickyData, wellFormed_map_iff]
    simp [Ordered.keys, Decimal.fits]
    decide
  have hnested : (Tree.map trickyData).nesting ≤ Json.maxDepth := by decide
  have hformat : (⟨.json, true⟩ : Style).format = .json := rfl
  have hread := jsonMembers_wrap_text hformat "de" hfree hwell (some 80)
  exact ⟨hfree, hwell, hread.trans (if_pos hnested)⟩

end FrontendSync.Locale
