import FrontendSync.Proofs.Php.Nesting

/-!
# Tokens by their indices

Readers of tokens that know where they are by an index, take slices between two indices, and go on
at an index that they have worked out.  Each step of this can fail: a slice can end before it starts
or behind the last token, and an index can stay where it is.  What is shown of such a reader is that
it does not fail and that it gives what the reader of the remaining tokens gives.
-/

namespace FrontendSync.Php.Cursor

/-- What can be wrong with an index. -/
inductive Misstep where
  /-- The slice between two indices is no part of a list of this length. -/
  | outOfRange (low high length : Nat)
  /-- The index to go on at is none of those behind this one. -/
  | stuck (i : Nat)

@[simp] theorem ok_bind {α β : Type} (a : α) (f : α → Except Misstep β) :
    (Except.ok a >>= f) = f a := rfl

@[simp] theorem pure_eq_ok {α : Type} (a : α) : (pure a : Except Misstep α) = .ok a := rfl

theorem foldlM_eq {α β : Type} {f : α → β → Except Misstep α} {g : α → β → α}
    (h : ∀ a b, f a b = .ok (g a b)) (a : α) (bs : List β) :
    bs.foldlM f a = .ok (bs.foldl g a) := by
  induction bs generalizing a with
  | nil => rfl
  | cons b bs ih => rw [List.foldlM_cons, h, ok_bind, ih, List.foldl_cons]

theorem mapM_eq {α β : Type} {f : α → Except Misstep β} {g : α → β}
    (h : ∀ a, f a = .ok (g a)) (as : List α) : as.mapM f = .ok (as.map g) := by
  induction as with
  | nil => rfl
  | cons a as ih => rw [List.mapM_cons, h, ok_bind, ih, ok_bind, pure_eq_ok, List.map_cons]

/-! ## Slices -/

/-- The tokens from an index on up to another one. -/
def slice (ts : List Token) (low high : Nat) : Except Misstep (List Token) :=
  if low ≤ high ∧ high ≤ ts.length then .ok ((ts.take high).drop low)
  else .error (.outOfRange low high ts.length)

variable {ts us : List Token} {low high i : Nat}

theorem slice_eq_ok_iff : slice ts low high = .ok us ↔
    low ≤ high ∧ high ≤ ts.length ∧ us = (ts.take high).drop low := by
  unfold slice
  split
  · rename_i h
    simp [h, eq_comm]
  · rename_i h
    simp only [reduceCtorEq, false_iff]
    exact fun h' ↦ h ⟨h'.1, h'.2.1⟩

theorem slice_length (h : low ≤ ts.length) : slice ts low ts.length = .ok (ts.drop low) :=
  slice_eq_ok_iff.mpr ⟨h, le_refl _, by rw [List.take_length]⟩

/-! ## Searches -/

/-- The tokens from `low` on are divided at the index `high`: what stands before it, and what stands
behind it. -/
structure IsCut (ts : List Token) (low high : Nat) (parts : List Token × List Token) : Prop where
  le : low ≤ high
  le_length : high ≤ ts.length
  before : (ts.take high).drop low = parts.1
  behind : ts.drop (high + 1) = parts.2

namespace IsCut

variable {parts : List Token × List Token}

theorem slice_eq (h : IsCut ts low high parts) : slice ts low high = .ok parts.1 :=
  slice_eq_ok_iff.mpr ⟨h.le, h.le_length, h.before.symm⟩

theorem min_length (h : IsCut ts low high parts) : min high ts.length = high :=
  Nat.min_eq_left h.le_length

/-- No token is left. -/
theorem ended (h : ts.length ≤ i) (hi : i ≤ ts.length) : IsCut ts i ts.length ([], []) where
  le := hi
  le_length := le_refl _
  before := by simp [h]
  behind := by simp

/-- The token at the index itself divides. -/
theorem here (h : i < ts.length) : IsCut ts i i ([], ts.drop (i + 1)) where
  le := le_refl _
  le_length := h.le
  before := by simp
  behind := rfl

/-- The token is passed over. -/
theorem next {inside rest : List Token} (h : i < ts.length)
    (hcut : IsCut ts (i + 1) high (inside, rest)) : IsCut ts i high (ts[i] :: inside, rest) where
  le := (Nat.le_succ i).trans hcut.le
  le_length := hcut.le_length
  before := by
    have hlt : i < (ts.take high).length := by
      have := hcut.le
      have := hcut.le_length
      rw [List.length_take]
      omega
    rw [List.drop_eq_getElem_cons hlt, hcut.before, List.getElem_take]
  behind := hcut.behind

end IsCut

theorem drop_eq_cons (h : i < ts.length) : ts.drop i = ts[i] :: ts.drop (i + 1) :=
  List.drop_eq_getElem_cons h

/-- Either there is a token at an index, in front of those behind it, or no token is left. -/
theorem here_or_ended (ts : List Token) (i : Nat) :
    (∃ t, i < ts.length ∧ ts[i]? = some t ∧ ts.drop i = t :: ts.drop (i + 1)) ∨
      ts.length ≤ i ∧ ts[i]? = none ∧ ts.drop i = [] := by
  rcases Nat.lt_or_ge i ts.length with hi | hi
  · exact .inl ⟨ts[i], hi, List.getElem?_eq_getElem hi, drop_eq_cons hi⟩
  · exact .inr ⟨hi, List.getElem?_eq_none hi, List.drop_eq_nil_of_le hi⟩

theorem lt_of_any_getElem? {p : Token → Bool} (h : ts[i]?.any p = true) : i < ts.length := by
  obtain ⟨t, ht, -⟩ := (Option.any_eq_true _ _).mp h
  exact (List.getElem?_eq_some_iff.mp ht).1

theorem drop_min_length (ts : List Token) (i : Nat) : ts.drop (min i ts.length) = ts.drop i := by
  rcases Nat.le_total i ts.length with hle | hle
  · rw [Nat.min_eq_left hle]
  · rw [Nat.min_eq_right hle, List.drop_length, List.drop_eq_nil_of_le hle]

/-- What is found by indices is what the tokens that are left give: its value, and an index from
`low` on where the tokens behind it go on. -/
abbrev Agrees {α : Type} (ts : List Token) (low : Nat) (found : Except Misstep (α × Nat))
    (answer : α × List Token) : Prop :=
  ∃ j, found = .ok (answer.1, j) ∧ low ≤ j ∧ ts.drop j = answer.2

/-- The index of the bracket that closes a group, counted from `i` on with `depth` groups open
inside of it. -/
def closeFrom (ts : List Token) (depth i : Nat) : Nat :=
  if h : i < ts.length then
    if ts[i].opens then closeFrom ts (depth + 1) (i + 1)
    else if ts[i].closes then
      if depth = 0 then i else closeFrom ts (depth - 1) (i + 1)
    else closeFrom ts depth (i + 1)
  else ts.length
termination_by ts.length - i

theorem isCut_closeFrom (depth : Nat) (h : i ≤ ts.length) :
    IsCut ts i (closeFrom ts depth i) (Brackets.group depth (ts.drop i)) := by
  -- Each token that the index passes is one that `group` takes from the front.
  fun_induction closeFrom ts depth i with
  | case1 depth i hi hopens ih =>
    rw [drop_eq_cons hi, Brackets.group.eq_def]
    simp only [hopens, if_true]
    exact .next hi (ih hi)
  | case2 i hi hopens hcloses =>
    rw [drop_eq_cons hi, Brackets.group, if_neg hopens, if_pos hcloses]
    exact .here hi
  | case3 depth i hi hopens hcloses hdepth ih =>
    obtain ⟨depth, rfl⟩ := Nat.exists_eq_succ_of_ne_zero hdepth
    rw [drop_eq_cons hi, Brackets.group, if_neg hopens, if_pos hcloses]
    exact .next hi (ih hi)
  | case4 depth i hi hopens hcloses ih =>
    rw [drop_eq_cons hi, Brackets.group.eq_def]
    simp only [hopens, hcloses, Bool.false_eq_true, if_false]
    exact .next hi (ih hi)
  | case5 depth i hi =>
    have hge : ts.length ≤ i := Nat.le_of_not_lt hi
    rw [List.drop_eq_nil_of_le hge, Brackets.group]
    exact .ended hge h

/-- The tokens inside of a group that starts at an index. -/
def inside (ts : List Token) (i : Nat) : Except Misstep (List Token) :=
  slice ts i (min (closeFrom ts 0 i) ts.length)

theorem inside_eq (h : i ≤ ts.length) : inside ts i = .ok (Brackets.group 0 (ts.drop i)).1 := by
  have hcut : IsCut ts i _ (Brackets.group 0 (ts.drop i)) := isCut_closeFrom 0 h
  rw [inside, hcut.min_length, hcut.slice_eq]

/-- The index of the semicolon that ends a statement, counted from `i` on in the same way. -/
def endFrom (ts : List Token) (depth i : Nat) : Nat :=
  if h : i < ts.length then
    if Brackets.opensInStatement ts[i] then endFrom ts (depth + 1) (i + 1)
    else if ts[i].closes then endFrom ts (depth - 1) (i + 1)
    else if ts[i].isPunct .semicolon && depth == 0 then i
    else endFrom ts depth (i + 1)
  else ts.length
termination_by ts.length - i

theorem isCut_endFrom (depth : Nat) (h : i ≤ ts.length) :
    IsCut ts i (endFrom ts depth i) (Brackets.statement depth (ts.drop i)) := by
  fun_induction endFrom ts depth i with
  | case1 depth i hi hopens ih =>
    have hsemicolon : ts[i].isPunct .semicolon = false :=
      Brackets.isPunct_eq_false rfl rfl (.inl (Bool.and_eq_true_iff.mp hopens).1)
    rw [drop_eq_cons hi, Brackets.statement, hsemicolon]
    simp only [Bool.false_and, Bool.false_eq_true, if_false, hopens, if_true]
    exact .next hi (ih hi)
  | case2 depth i hi hopens hcloses ih =>
    have hsemicolon : ts[i].isPunct .semicolon = false :=
      Brackets.isPunct_eq_false rfl rfl (.inr hcloses)
    rw [drop_eq_cons hi, Brackets.statement, hsemicolon]
    simp only [Bool.false_and, Bool.false_eq_true, if_false, hopens, hcloses, if_true]
    exact .next hi (ih hi)
  | case3 depth i hi hopens hcloses hends =>
    rw [drop_eq_cons hi, Brackets.statement, if_pos hends]
    exact .here hi
  | case4 depth i hi hopens hcloses hends ih =>
    rw [drop_eq_cons hi, Brackets.statement, if_neg hends]
    simp only [hopens, hcloses, Bool.false_eq_true, if_false]
    exact .next hi (ih hi)
  | case5 depth i hi =>
    have hge : ts.length ≤ i := Nat.le_of_not_lt hi
    rw [List.drop_eq_nil_of_le hge, Brackets.statement]
    exact .ended hge h

/-- Where the first token with `p` stands, counted from `low` on. -/
def position (p : Token → Bool) (ts : List Token) (low : Nat) : Except Misstep (Option Nat) := do
  return (← slice ts low ts.length).findIdx? p

theorem position_eq (p : Token → Bool) (h : i ≤ ts.length) :
    position p ts i = .ok ((ts.drop i).findIdx? p) := by
  rw [position, slice_length h, ok_bind, pure_eq_ok]

theorem lt_of_findIdx?_drop {p : Token → Bool} {found : Nat}
    (h : (ts.drop i).findIdx? p = some found) : i + found < ts.length := by
  have hlt := (List.findIdx?_eq_some_iff_findIdx_eq.mp h).1
  rw [List.length_drop] at hlt
  omega

/-- The index that lies that far behind another one, or the end. -/
def indexOr (ts : List Token) (i : Nat) (found : Option Nat) : Nat :=
  (found.map (i + ·)).getD ts.length

theorem indexOr_findIdx? (p : Token → Bool) (h : i ≤ ts.length) :
    indexOr ts i ((ts.drop i).findIdx? p) = i + (ts.drop i).findIdx p := by
  rw [indexOr, List.findIdx_eq_getD_findIdx?]
  cases (ts.drop i).findIdx? p with
  | none =>
    simp only [Option.map_none, Option.getD_none, List.length_drop]
    omega
  | some k => rfl

theorem isCut_indexOr (p : Token → Bool) (h : i ≤ ts.length) :
    IsCut ts i (indexOr ts i ((ts.drop i).findIdx? p)) (Brackets.splitAt p (ts.drop i)) := by
  have hle : (ts.drop i).findIdx p ≤ ts.length - i :=
    List.findIdx_le_length.trans_eq List.length_drop
  have hbefore : (ts.drop i).takeWhile (!p ·) = (ts.drop i).take ((ts.drop i).findIdx p) := by
    simp only [List.takeWhile_eq_take_findIdx_not, Bool.not_not]
  have hlength : ((ts.drop i).takeWhile (!p ·)).length = (ts.drop i).findIdx p := by
    rw [hbefore, List.length_take, List.length_drop]
    omega
  rw [indexOr_findIdx? p h]
  refine ⟨Nat.le_add_right _ _, by omega, ?_, ?_⟩
  · rw [Brackets.splitAt, hbefore, List.take_drop]
  · rw [Brackets.splitAt, hlength, List.drop_drop, Nat.add_assoc]

/-- What is found stands in front. -/
theorem drop_indexOr (p : Token → Bool) (h : i ≤ ts.length) :
    ts.drop (indexOr ts i ((ts.drop i).findIdx? p)) = (ts.drop i).dropWhile (!p ·) := by
  rw [indexOr_findIdx? p h, ← List.drop_drop, List.dropWhile_eq_drop_findIdx_not]
  simp only [Bool.not_not]

/-! ## Steps from index to index -/

section Walk

variable {σ α : Type}

/-- The tokens from an index on, one after the other: a step gives what is known behind the token
and the index to go on at. -/
def walk (step : σ → Nat → Token → Except Misstep (σ × Nat)) (ts : List Token) (s : σ) (i : Nat) :
    Except Misstep σ :=
  if h : i < ts.length then do
    let next ← step s i ts[i]
    -- going on here or in front would read tokens again, without end
    if hlt : i < next.2 then walk step ts next.1 next.2 else throw (.stuck i)
  else return s
termination_by ts.length - i

variable {step : σ → Nat → Token → Except Misstep (σ × Nat)} {finish : σ → Except Misstep α}

/-- What every step leaves as it is comes out in the end. -/
theorem walk_eq {P : σ → Nat → Prop} {f : σ → Nat → α}
    (hstep : ∀ s i (h : i < ts.length), P s i → ∃ s' j, step s i ts[i] = .ok (s', j) ∧ i < j ∧
      P s' j ∧ f s' j = f s i)
    (hend : ∀ s i, ts.length ≤ i → P s i → finish s = .ok (f s i)) {s : σ} (h : P s i) :
    (walk step ts s i >>= finish) = .ok (f s i) := by
  fun_induction walk step ts s i with
  | case1 s i hi ih =>
    obtain ⟨s', j, heq, hlt, hnext, hvalue⟩ := hstep s i hi h
    rw [heq, ok_bind]
    simp only [hlt, dite_true]
    rw [ih (s', j) hlt hnext, hvalue]
  | case2 s i hi => exact hend s i (Nat.le_of_not_lt hi) h

/-- A reader of the remaining tokens that each step agrees with gives what the steps give. -/
theorem walk_eq_read {f : σ → List Token → α}
    (hstep : ∀ s i (h : i < ts.length), ∃ s' j, step s i ts[i] = .ok (s', j) ∧ i < j ∧
      f s' (ts.drop j) = f s (ts[i] :: ts.drop (i + 1)))
    (hend : ∀ s, finish s = .ok (f s [])) (s : σ) (i : Nat) :
    (walk step ts s i >>= finish) = .ok (f s (ts.drop i)) := by
  refine walk_eq (P := fun _ _ ↦ True) (f := fun s i ↦ f s (ts.drop i)) (fun s i h _ ↦ ?_)
    (fun s i h _ ↦ ?_) trivial
  · obtain ⟨s', j, heq, hlt, hread⟩ := hstep s i h
    exact ⟨s', j, heq, hlt, trivial, by rw [hread, drop_eq_cons h]⟩
  · rw [hend, List.drop_eq_nil_of_le h]

end Walk

/-! ## Pieces -/

/-- The pieces that are complete, the brackets that are open, and where the next piece starts. -/
structure Splitting where
  pieces : List (List Token)
  depth : Nat
  start : Nat

def splitStep (ts : List Token) (s : Splitting) (i : Nat) (t : Token) :
    Except Misstep (Splitting × Nat) := do
  if t.opens then return (⟨s.pieces, s.depth + 1, s.start⟩, i + 1)
  else if t.closes then return (⟨s.pieces, s.depth - 1, s.start⟩, i + 1)
  else if t.isPunct .comma && s.depth == 0 then
    if s.start < i then return (⟨s.pieces ++ [← slice ts s.start i], s.depth, i + 1⟩, i + 1)
    else return (⟨s.pieces, s.depth, i + 1⟩, i + 1)
  else return (s, i + 1)

def splitEnd (ts : List Token) (s : Splitting) : Except Misstep (List (List Token)) := do
  if s.start < ts.length then return s.pieces ++ [← slice ts s.start ts.length]
  else return s.pieces

/-- The pieces between commas that are not empty. -/
def items (ts : List Token) : Except Misstep (List (List Token)) :=
  walk (splitStep ts) ts ⟨[], 0, 0⟩ 0 >>= splitEnd ts

/-- What the pieces will be, from the token at an index on. -/
def Splitting.value (ts : List Token) (s : Splitting) (i : Nat) : List (List Token) :=
  s.pieces ++ (Brackets.prependTo ((ts.take i).drop s.start)
    (Brackets.commaPieces s.depth (ts.drop i))).filter (· ≠ [])

theorem drop_take_succ (h : i < ts.length) (hle : low ≤ i) :
    (ts.take (i + 1)).drop low = (ts.take i).drop low ++ [ts[i]] := by
  rw [List.take_succ_eq_append_getElem h, List.drop_append_of_le_length]
  rw [List.length_take]
  omega

theorem drop_take_eq_nil_iff (h : i ≤ ts.length) : (ts.take i).drop low = [] ↔ i ≤ low := by
  rw [List.drop_eq_nil_iff, List.length_take, Nat.min_eq_left h]

theorem prependTo_nil {pieces : List (List Token)} (h : pieces ≠ []) :
    Brackets.prependTo [] pieces = pieces := by
  cases pieces with
  | nil => exact absurd rfl h
  | cons piece more => rfl

/-- A token that separates no pieces belongs to the one that is being read. -/
theorem value_of_not_comma {s : Splitting} (hi : i < ts.length) (hle : s.start ≤ i)
    (hcomma : (ts[i].isPunct .comma && s.depth == 0) = false) :
    Splitting.value ts
      ⟨s.pieces, if ts[i].opens then s.depth + 1 else if ts[i].closes then s.depth - 1 else s.depth,
        s.start⟩ (i + 1) = s.value ts i := by
  rw [Splitting.value, Splitting.value, drop_eq_cons hi, Brackets.commaPieces_cons hcomma,
    Brackets.prependTo_prependTo, drop_take_succ hi hle]

/-- A comma ends the piece that is being read; an empty one is dropped. -/
theorem value_of_comma {s : Splitting} (hi : i < ts.length)
    (hcomma : (ts[i].isPunct .comma && s.depth == 0) = true) :
    Splitting.value ts
      ⟨s.pieces ++ [(ts.take i).drop s.start].filter (· ≠ []), s.depth, i + 1⟩ (i + 1)
        = s.value ts i := by
  have hdepth : s.depth = 0 := by simpa using (Bool.and_eq_true_iff.mp hcomma).2
  have hempty : (ts.take (i + 1)).drop (i + 1) = [] := (drop_take_eq_nil_iff hi).mpr (le_refl _)
  rw [Splitting.value, Splitting.value, drop_eq_cons hi, Brackets.commaPieces, if_pos hcomma,
    hempty, hdepth, prependTo_nil (Brackets.commaPieces_ne_nil 0 _), List.append_assoc,
    ← List.filter_append, Brackets.prependTo, List.append_nil, List.singleton_append]

theorem filter_singleton_slice (hi : i ≤ ts.length) :
    [(ts.take i).drop low].filter (· ≠ []) = if low < i then [(ts.take i).drop low] else [] := by
  by_cases h : low < i
  · have hne : (ts.take i).drop low ≠ [] := fun hnil ↦
      absurd ((drop_take_eq_nil_iff hi).mp hnil) (Nat.not_le_of_lt h)
    simp [h, hne]
  · have hnil : (ts.take i).drop low = [] := (drop_take_eq_nil_iff hi).mpr (Nat.le_of_not_lt h)
    simp [h, hnil]

theorem splitStep_eq {s : Splitting} (hi : i < ts.length) (hle : s.start ≤ i) :
    ∃ s', splitStep ts s i ts[i] = .ok (s', i + 1) ∧ s'.start ≤ i + 1 ∧
      s'.value ts (i + 1) = s.value ts i := by
  have hbracket (h : ts[i].opens = true ∨ ts[i].closes = true) :
      (ts[i].isPunct .comma && s.depth == 0) = false := by
    rw [Brackets.isPunct_eq_false rfl rfl h, Bool.false_and]
  have hnext : s.start ≤ i + 1 := Nat.le_succ_of_le hle
  by_cases hopens : ts[i].opens = true
  · refine ⟨⟨s.pieces, s.depth + 1, s.start⟩, by simp [splitStep, hopens], hnext, ?_⟩
    simpa only [hopens, if_true] using value_of_not_comma hi hle (hbracket (.inl hopens))
  by_cases hcloses : ts[i].closes = true
  · refine ⟨⟨s.pieces, s.depth - 1, s.start⟩, by simp [splitStep, hopens, hcloses], hnext, ?_⟩
    simpa only [hopens, hcloses, Bool.false_eq_true, if_false, if_true]
      using value_of_not_comma hi hle (hbracket (.inr hcloses))
  cases hcomma : (ts[i].isPunct .comma && s.depth == 0) with
  | true =>
    refine ⟨⟨s.pieces ++ [(ts.take i).drop s.start].filter (· ≠ []), s.depth, i + 1⟩, ?_, le_refl _,
      value_of_comma hi hcomma⟩
    have hslice : slice ts s.start i = .ok ((ts.take i).drop s.start) :=
      slice_eq_ok_iff.mpr ⟨hle, hi.le, rfl⟩
    rw [splitStep, if_neg hopens, if_neg hcloses, if_pos hcomma, filter_singleton_slice hi.le,
      hslice]
    by_cases hlt : s.start < i
    · simp [hlt]
    · simp [hlt]
  | false =>
    refine ⟨s, by simp [splitStep, hopens, hcloses, hcomma], hnext, ?_⟩
    simpa only [hopens, hcloses, Bool.false_eq_true, if_false]
      using value_of_not_comma hi hle hcomma

theorem splitEnd_eq {s : Splitting} (h : s.start ≤ ts.length) :
    splitEnd ts s = .ok (s.value ts ts.length) := by
  rw [splitEnd, Splitting.value, List.drop_length, Brackets.commaPieces, Brackets.prependTo,
    List.append_nil, filter_singleton_slice (le_refl _), slice_length h, List.take_length]
  by_cases hlt : s.start < ts.length
  · simp [hlt]
  · simp [hlt]

theorem items_eq (ts : List Token) : items ts = .ok (Brackets.items ts) := by
  have hrun : items ts = .ok (Splitting.value ts ⟨[], 0, 0⟩ 0) := by
    refine walk_eq (P := fun s i ↦ s.start ≤ i ∧ i ≤ ts.length) (f := Splitting.value ts)
      (fun s i hi ⟨hle, _⟩ ↦ ?_) (fun s i hi ⟨hle, hlength⟩ ↦ ?_) ⟨le_refl _, Nat.zero_le _⟩
    · obtain ⟨s', heq, hnext, hvalue⟩ := splitStep_eq hi hle
      exact ⟨s', i + 1, heq, Nat.lt_succ_self i, ⟨hnext, hi⟩, hvalue⟩
    · obtain rfl : i = ts.length := le_antisymm hlength hi
      exact splitEnd_eq hle
  rw [hrun, Splitting.value, Brackets.items, List.take_zero, List.drop_zero, List.drop_zero,
    prependTo_nil (Brackets.commaPieces_ne_nil 0 ts), List.nil_append]

end FrontendSync.Php.Cursor
