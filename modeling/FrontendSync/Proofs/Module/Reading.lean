import FrontendSync.Module.Export
import FrontendSync.Module.Style

/-!
# Reading constants

What the reader of exports makes of the tokens of a constant.  The entries of an object or an
array stand between commas, the last of them with or without one behind it; if each of them reads
as it should, so does the constant, and if one of them does not, the constant is none and the
reader goes on behind its semicolon.
-/

namespace FrontendSync.Module

/-- Tokens of rows with a comma after each, after the last one only where asked for. -/
def separatedTokens (trailing : Bool) : List (List Token) → List Token
  | [] => []
  | [ts] => ts ++ if trailing then [.mark ','] else []
  | ts :: more => ts ++ .mark ',' :: separatedTokens trailing more

/-- What follows a row: a comma, or the closing bracket. -/
def afterRow (trailing : Bool) (closing : Char) (more : List (List Token)) (rest : List Token) :
    List Token :=
  match more with
  | [] => (if trailing then [.mark ','] else []) ++ .mark closing :: rest
  | more => .mark ',' :: (separatedTokens trailing more ++ .mark closing :: rest)

theorem separatedTokens_cons_append (trailing : Bool) (closing : Char) (ts : List Token)
    (more : List (List Token)) (rest : List Token) :
    separatedTokens trailing (ts :: more) ++ .mark closing :: rest
      = ts ++ afterRow trailing closing more rest := by
  cases more <;> simp [separatedTokens, afterRow]

/-- An assertion, as a style asks for it. -/
def assertionTokens (style : Style) : List Token :=
  if style.isTs then [.word "as", .word "const"] else []

namespace Export

/-- A reference would go on behind a point. -/
def NoPoint (ts : List Token) : Prop := ts.head? ≠ some (.mark '.')

theorem noPoint_afterRow (trailing : Bool) {closing : Char} (hc : closing ≠ '.')
    (more : List (List Token)) (rest : List Token) :
    NoPoint (afterRow trailing closing more rest) := by
  cases more with
  | nil => cases trailing <;> simp [NoPoint, afterRow, hc]
  | cons _ _ => simp [NoPoint, afterRow]

/-- Tokens that read as a value whatever comes behind them, other than a point. -/
def ReadsAs (ts : List Token) (v : Value) : Prop :=
  ∀ rest, NoPoint rest → value? (ts ++ rest) = some (v, rest)

/-- Behind a row the reader finds either the next row or the closing bracket. -/
theorem afterEntry?_afterRow (trailing : Bool) {closing : Char} (hc : closing ≠ ',')
    (more : List (List Token)) (rest : List Token) :
    afterEntry? closing (afterRow trailing closing more rest)
      = some (separatedTokens trailing more ++ .mark closing :: rest) := by
  cases more with
  | nil => cases trailing <;> simp [ afterEntry?, afterRow, separatedTokens, hc]
  | cons _ _ => simp [ afterEntry?, afterRow]

/-- The value of an entry, and the tokens from the next entry or the closing bracket on. -/
def rowValue? (closing : Char) (ts : List Token) : Option (Value × List Token) :=
  (value? ts).bind fun r ↦ ( afterEntry? closing r.2).map fun rest ↦ (r.1, rest)

/-- A row that reads as the given value, or not at all, between brackets that `closing` closes. -/
def RowReads (closing : Char) (ts : List Token) (v : Option Value) : Prop :=
  ∀ trailing more rest, rowValue? closing (ts ++ afterRow trailing closing more rest)
    = v.map fun v ↦ (v, separatedTokens trailing more ++ .mark closing :: rest)

theorem ReadsAs.rowReads {ts : List Token} {v : Value} (h : ReadsAs ts v) {closing : Char}
    (hc : closing ≠ ',') (hp : closing ≠ '.') : RowReads closing ts (some v) := by
  intro trailing more rest
  simp [Export.rowValue?, h _ (noPoint_afterRow trailing hp more rest),
    afterEntry?_afterRow trailing hc]

/-! ## Objects and arrays -/

/-- An object goes on with a key, a colon and the value behind it. -/
theorem members?_cons {t : Token} {k : String} (hk : keyText? t = some k) (ts : List Token) :
    members? (t :: .mark ':' :: ts) = (rowValue? '}' ts).bind fun r ↦
      (members? r.2).map fun (ms, rest) ↦ ((k, r.1) :: ms, rest) := by
  have ht : t ≠ .mark '}' := by rintro rfl; simp [keyText?] at hk
  rw [members?]
  · split
    · rename_i key r hkey hr
      obtain rfl : k = key := by simpa [hk] using hkey
      split
      · rename_i after ha
        simp [rowValue?, hr, ha]
      · rename_i ha
        simp [rowValue?, hr, ha]
    · rename_i hnone
      cases hv : value? ts with
      | none => simp [rowValue?, hv]
      | some r => exact (hnone _ _ hk hv).elim
  · simpa using ht

/-- An array goes on with a value, unless it ends. -/
theorem items?_eq {ts : List Token} (h : ts.head? ≠ some (.mark ']')) (n : Nat) :
    items? n ts = (rowValue? ']' ts).bind fun r ↦
      (items? (n + 1) r.2).map fun (ms, rest) ↦ ((Decimal.ofNat n, r.1) :: ms, rest) := by
  rw [items?]
  · split
    · rename_i r hr
      split
      · rename_i after ha
        simp [rowValue?, hr, ha]
      · rename_i ha
        simp [rowValue?, hr, ha]
    · rename_i hr
      simp [rowValue?, hr]
  · rintro rest rfl
    exact h rfl

/-- No value starts with a closing bracket. -/
theorem ReadsAs.head?_ne {ts : List Token} {v : Value} (h : ReadsAs ts v) (rest : List Token) :
    (ts ++ rest).head? ≠ some (.mark ']') := by
  intro hhead
  cases ts with
  | nil =>
    have hv := value?_snd_length_lt (h [] (by simp [NoPoint]))
    simp at hv
  | cons t ts =>
    obtain rfl := Option.some.inj hhead
    have hv := h [] (by simp [NoPoint])
    simp [value?] at hv

section Rows

variable {α : Type} (trailing : Bool) (rest : List Token)

/-- An object is read entry by entry, and is none if one of them does not read. -/
theorem members?_rows (keyToken : α → Token) (valueTokens : α → List Token) (key : α → String)
    (read? : α → Option Value) (xs : List α)
    (h : ∀ x ∈ xs, keyText? (keyToken x) = some (key x) ∧
      RowReads '}' (valueTokens x) (read? x)) :
    members? (separatedTokens trailing (xs.map fun x ↦ keyToken x :: .mark ':' :: valueTokens x)
      ++ .mark '}' :: rest)
      = (xs.mapM fun x ↦ (read? x).map fun v ↦ (key x, v)).map fun es ↦ (es, rest) := by
  induction xs with
  | nil => simp [separatedTokens, members?]
  | cons x xs ih =>
    obtain ⟨⟨hk, hv⟩, hxs⟩ := List.forall_mem_cons.mp h
    rw [List.map_cons, separatedTokens_cons_append, List.cons_append, List.cons_append,
      members?_cons hk, hv, List.mapM_cons]
    cases read? x with
    | none => rfl
    | some v =>
      simp only [Option.map_some, Option.bind_some, ih hxs]
      cases xs.mapM fun x ↦ (read? x).map fun v ↦ (key x, v) <;> rfl

/-- An array is read item by item, with their positions as keys. -/
theorem items?_rows (valueTokens : α → List Token) (read? : α → Option Value) (xs : List α)
    (n : Nat) (h : ∀ x ∈ xs, RowReads ']' (valueTokens x) (read? x) ∧
      ∀ rest, (valueTokens x ++ rest).head? ≠ some (.mark ']')) :
    items? n (separatedTokens trailing (xs.map valueTokens) ++ .mark ']' :: rest)
      = ((xs.zipIdx n).mapM fun p ↦ (read? p.1).map fun v ↦ (Decimal.ofNat p.2, v)).map
        fun es ↦ (es, rest) := by
  induction xs generalizing n with
  | nil => simp [separatedTokens, items?]
  | cons x xs ih =>
    obtain ⟨⟨hv, hhead⟩, hxs⟩ := List.forall_mem_cons.mp h
    rw [List.map_cons, separatedTokens_cons_append, items?_eq (hhead _), hv, List.zipIdx_cons,
      List.mapM_cons]
    dsimp only
    cases read? x with
    | none => rfl
    | some v =>
      simp only [Option.map_some, Option.bind_some, ih (n + 1) hxs]
      cases (xs.zipIdx (n + 1)).mapM fun p ↦ (read? p.1).map fun v ↦ (Decimal.ofNat p.2, v) <;> rfl

end Rows

/-! ## Statements -/

theorem afterConstant_assertionTokens (style : Style) (rest : List Token) :
    afterConstant (assertionTokens style ++ .mark ';' :: rest) = rest := by
  unfold assertionTokens
  split <;> simp [afterConstant, afterAssertion, afterSemicolon]

/-- A constant that reads is the next export. -/
theorem all_of_constant? {ts rest : List Token} {e : Export} (h : constant? ts = some (e, rest)) :
    all (.word "export" :: .word "const" :: ts) = e :: all rest := by
  rw [all]
  split
  · rename_i r hr
    obtain rfl : (e, rest) = r := by simpa [h] using hr
    rfl
  · rename_i hr
    simp [h] at hr

/-- Any other `export` is passed over up to the end of its statement. -/
theorem all_export {ts : List Token} (h : ts.head? ≠ some (.word "const")) :
    all (.word "export" :: ts) = all (afterStatement 0 ts) := by
  rw [all]
  rintro rest rfl
  exact h rfl

/-! ## Words

Every part of the reader leaves an end of its tokens, so that nothing is read that is not there. -/

theorem word_mem_of_constant? {ts : List Token} {r : Export × List Token}
    (h : constant? ts = some r) : .word r.1.name ∈ ts := by
  unfold constant? at h
  split at h
  · obtain ⟨a, ha, rfl⟩ := Option.map_eq_some_iff.mp h
    exact List.mem_cons_self
  · obtain ⟨a, ha, rfl⟩ := Option.map_eq_some_iff.mp h
    exact List.mem_cons_self
  · simp at h

/-- The name of every export is one of the words. -/
theorem word_mem_of_mem_all {ts : List Token} {e : Export} (h : e ∈ all ts) :
    .word e.name ∈ ts := by
  fun_induction all ts with
  | case1 => simp at h
  | case2 rest r hr _ ih =>
    rcases List.mem_cons.mp h with rfl | h
    · exact List.mem_cons_of_mem _ (List.mem_cons_of_mem _ (word_mem_of_constant? hr))
    · have hrest := (constant?_isRest hr).suffix.subset (ih h)
      exact List.mem_cons_of_mem _ (List.mem_cons_of_mem _ hrest)
  | case3 rest _ _ ih =>
    have hsuffix := afterStatement_suffix 0 rest
    exact List.mem_cons_of_mem _ (List.mem_cons_of_mem _ (hsuffix.subset (ih h)))
  | case4 rest _ _ ih =>
    exact List.mem_cons_of_mem _ ((afterStatement_suffix 0 rest).subset (ih h))
  | case5 _ _ _ _ ih => exact List.mem_cons_of_mem _ (ih h)

end Export

end FrontendSync.Module
