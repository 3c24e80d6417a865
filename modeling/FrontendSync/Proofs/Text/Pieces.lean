import FrontendSync.Text.Lines

/-!
# Pieces of texts

Where a text is divided at a character or at another text, and that the pieces of joined pieces are
these pieces; what stands around a line of joined lines.
-/

namespace FrontendSync.Text

variable {c : Char}

theorem pieces_of_notMem {s : List Char} (h : c ∉ s) : pieces c s = [s] := by
  induction s with
  | nil => rfl
  | cons d s ih =>
    obtain ⟨hd, hs⟩ := not_or.mp (mt List.mem_cons.mpr h)
    simp [pieces, ih hs, Ne.symm hd]

theorem pieces_append_cons (s t : List Char) :
    pieces c (s ++ c :: t) = pieces c s ++ pieces c t := by
  induction s with
  | nil =>
    rw [List.nil_append, pieces, pieces]
    cases ht : pieces c t with
    | nil => exact absurd ht (pieces_ne_nil c t)
    | cons piece more => exact if_pos rfl
  | cons d s ih =>
    rw [List.cons_append, pieces, pieces, ih]
    cases hs : pieces c s with
    | nil => exact absurd hs (pieces_ne_nil c s)
    | cons piece more =>
      simp only [List.cons_append]
      split <;> rfl

theorem notMem_of_mem_pieces {s piece : List Char} (h : piece ∈ pieces c s) : c ∉ piece := by
  induction s generalizing piece with
  | nil =>
    obtain rfl := List.mem_singleton.mp h
    exact List.not_mem_nil
  | cons d s ih =>
    rw [pieces] at h
    cases hs : pieces c s with
    | nil => exact absurd hs (pieces_ne_nil c s)
    | cons first more =>
      rw [hs] at h ih
      simp only at h
      split at h
      · rcases List.mem_cons.mp h with rfl | h
        · exact List.not_mem_nil
        · exact ih h
      · rename_i hd
        rcases List.mem_cons.mp h with rfl | h
        · rintro (_ | ⟨_, hmem⟩)
          · exact hd rfl
          · exact ih List.mem_cons_self hmem
        · exact ih (List.mem_cons_of_mem _ h)

theorem pieces_join {ps : List (List Char)} (hne : ps ≠ []) (h : ∀ p ∈ ps, c ∉ p) :
    pieces c (join c ps) = ps := by
  induction ps with
  | nil => exact absurd rfl hne
  | cons p ps ih =>
    obtain ⟨hp, hps⟩ := List.forall_mem_cons.mp h
    cases ps with
    | nil => exact pieces_of_notMem hp
    | cons q ps =>
      have hjoin : join c (p :: q :: ps) = p ++ c :: join c (q :: ps) := rfl
      rw [hjoin, pieces_append_cons, pieces_of_notMem hp, ih (by simp) hps]
      rfl

theorem join_cons (p : List Char) {ps : List (List Char)} (h : ps ≠ []) :
    join c (p :: ps) = p ++ c :: join c ps := by
  cases ps with
  | nil => exact absurd rfl h
  | cons q ps => rfl

theorem flatMap_append_separator {ps : List (List Char)} (h : ps ≠ []) :
    ps.flatMap (· ++ [c]) = join c ps ++ [c] := by
  induction ps with
  | nil => exact absurd rfl h
  | cons p ps ih =>
    cases ps with
    | nil => simp [join]
    | cons q ps =>
      rw [join_cons p (by simp), List.flatMap_cons, ih (by simp)]
      simp

/-- Whatever the last pieces are, the same text stands in front of them. -/
theorem join_append_eq_flatMap (ps : List (List Char)) {qs : List (List Char)} (h : qs ≠ []) :
    join c (ps ++ qs) = ps.flatMap (· ++ [c]) ++ join c qs := by
  induction ps with
  | nil => rfl
  | cons p ps ih =>
    rw [List.cons_append, join_cons p (by simp [h]), ih, List.flatMap_cons]
    simp

theorem join_append {ps qs : List (List Char)} (hps : ps ≠ []) (hqs : qs ≠ []) :
    join c (ps ++ qs) = join c ps ++ c :: join c qs := by
  rw [join_append_eq_flatMap ps hqs, flatMap_append_separator hps, List.append_assoc,
    List.singleton_append]

theorem join_cons_eq_flatMap (p : List Char) (ps : List (List Char)) :
    join c (p :: ps) = p ++ ps.flatMap (c :: ·) := by
  induction ps generalizing p with
  | nil => exact (List.append_nil p).symm
  | cons q ps ih => rw [join_cons p (by simp), ih, List.flatMap_cons, List.cons_append]

/-- The first pieces are divided whatever the others hold. -/
theorem pieces_join_append {ps qs : List (List Char)} (h : ∀ p ∈ ps, c ∉ p) (hne : qs ≠ []) :
    pieces c (join c (ps ++ qs)) = ps ++ pieces c (join c qs) := by
  induction ps with
  | nil => rfl
  | cons p ps ih =>
    obtain ⟨hp, hps⟩ := List.forall_mem_cons.mp h
    rw [List.cons_append, join_cons p (by simp [hne]), pieces_append_cons, pieces_of_notMem hp,
      ih hps]
    rfl

theorem mem_of_mem_pieces {s piece : List Char} (h : piece ∈ pieces c s) {d : Char}
    (hd : d ∈ piece) : d ∈ s := by
  obtain ⟨ps, qs, hpieces⟩ := List.append_of_mem h
  rw [← join_pieces c s, hpieces, join_append_eq_flatMap ps (by simp), join_cons_eq_flatMap]
  simp [hd]

theorem map_join {f : Char → Char} (hf : f c = c) (ps : List (List Char)) :
    (join c ps).map f = join c (ps.map (·.map f)) := by
  induction ps with
  | nil => rfl
  | cons p ps ih =>
    cases ps with
    | nil => rfl
    | cons q ps =>
      have hne : (q :: ps).map (·.map f) ≠ [] := by simp
      rw [join_cons p (List.cons_ne_nil q ps), List.map_append, List.map_cons, hf, ih]
      exact (join_cons (p.map f) hne).symm

theorem length_pieces (c : Char) (s : List Char) : (pieces c s).length = s.count c + 1 := by
  induction s with
  | nil => rfl
  | cons d s ih =>
    rw [pieces]
    cases hs : pieces c s with
    | nil => exact absurd hs (pieces_ne_nil c s)
    | cons piece more =>
      rw [hs] at ih
      by_cases hd : d = c
      · simpa [hd] using ih
      · simpa [hd] using ih

/-! ## Lines -/

theorem unlines_cons {l : String} {ls : List String} (h : ls ≠ []) :
    (unlines (l :: ls)).toList = l.toList ++ '\n' :: (unlines ls).toList := by
  cases ls with
  | nil => exact absurd rfl h
  | cons m ls => simp [unlines, String.intercalate_cons_cons]

theorem unlines_singleton (l : String) : unlines [l] = l := by simp [unlines]

theorem unlines_append_cons (front : List String) (l : String) (behind : List String) :
    (unlines (front ++ l :: behind)).toList
      = front.flatMap (·.toList ++ ['\n']) ++ (l.toList ++ behind.flatMap ('\n' :: ·.toList)) := by
  induction front with
  | nil =>
    rw [List.nil_append, List.flatMap_nil, List.nil_append]
    induction behind generalizing l with
    | nil => rw [unlines_singleton, List.flatMap_nil, List.append_nil]
    | cons m behind ih => rw [unlines_cons (by simp), ih, List.flatMap_cons, List.cons_append]
  | cons m front ih =>
    rw [List.cons_append, unlines_cons (by simp), ih, List.flatMap_cons]
    simp

/-! ## Separators of several characters -/

/-- The pieces between the occurrences of `sep`, found from left to right and not overlapping; an
empty separator divides nothing. -/
def piecesAt (sep s : List Char) : List (List Char) :=
  match s with
  | [] => [[]]
  | c :: s' =>
    match sep with
    | [] => [c :: s']
    | d :: sep' =>
      match _h : stripStart? (d :: sep') (c :: s') with
      | some rest => [] :: piecesAt (d :: sep') rest
      | none =>
        match piecesAt (d :: sep') s' with
        | [] => [[c]]
        | piece :: more => (c :: piece) :: more
termination_by s.length
decreasing_by
  · have := congrArg List.length (eq_append_of_stripStart? _h)
    simp only [List.length_append, List.length_cons] at this ⊢
    omega
  · simp

variable {sep front back : List Char}

theorem piecesAt_append (hne : sep ≠ []) (rest : List Char) :
    piecesAt sep (sep ++ rest) = [] :: piecesAt sep rest := by
  obtain ⟨d, sep, rfl⟩ := List.exists_cons_of_ne_nil hne
  rw [List.cons_append, piecesAt]
  split
  · rename_i h
    rw [← List.cons_append, stripStart?_append] at h
    rw [Option.some.inj h]
  · rename_i h
    rw [← List.cons_append, stripStart?_append] at h
    exact absurd h (by simp)

theorem piecesAt_cons (hne : sep ≠ []) {s piece : List Char} {more : List (List Char)}
    (h : ¬ sep <+: c :: s) (hs : piecesAt sep s = piece :: more) :
    piecesAt sep (c :: s) = (c :: piece) :: more := by
  obtain ⟨d, sep, rfl⟩ := List.exists_cons_of_ne_nil hne
  rw [piecesAt]
  split
  · rename_i hrest
    exact absurd ⟨_, (eq_append_of_stripStart? hrest).symm⟩ h
  · rw [hs]

/-- A separator does not occur in front of the first place where it has room. -/
theorem not_prefix_of_notMem {s p rest : List Char} (hfront : c ∉ front) (hp : c ∉ p) (hne : p ≠ [])
    (hs : s = p ++ (front ++ c :: rest)) : ¬ front ++ c :: back <+: s := by
  rintro ⟨t, ht⟩
  have hpieces : pieces c (front ++ c :: (back ++ t)) = pieces c (p ++ front ++ c :: rest) := by
    rw [List.append_assoc p, ← hs, ← ht, List.append_assoc, List.cons_append]
  have hboth : c ∉ p ++ front := by simp [hfront, hp]
  rw [pieces_append_cons, pieces_append_cons, pieces_of_notMem hfront, pieces_of_notMem hboth]
    at hpieces
  exact hne (List.self_eq_append_left.mp (List.cons.inj hpieces).1)

/-- A piece ends at the first separator behind it. -/
theorem piecesAt_append_append (hfront : c ∉ front) {p : List Char} (hp : c ∉ p)
    (rest : List Char) : piecesAt (front ++ c :: back) (p ++ (front ++ c :: back ++ rest))
      = p :: piecesAt (front ++ c :: back) rest := by
  have hsep : front ++ c :: back ≠ [] := by simp
  induction p with
  | nil => rw [List.nil_append, piecesAt_append hsep]
  | cons d p ih =>
    refine piecesAt_cons hsep ?_ (ih (not_or.mp (mt List.mem_cons.mpr hp)).2)
    have heq : d :: (p ++ (front ++ c :: back ++ rest))
        = (d :: p) ++ (front ++ c :: (back ++ rest)) := by simp
    exact not_prefix_of_notMem hfront hp (List.cons_ne_nil d p) heq

theorem piecesAt_of_notMem {s : List Char} (hs : c ∉ s) :
    piecesAt (front ++ c :: back) s = [s] := by
  have hsep : front ++ c :: back ≠ [] := by simp
  induction s with
  | nil => rw [piecesAt]
  | cons d s ih =>
    refine piecesAt_cons hsep (fun hoccurs ↦ hs (hoccurs.subset ?_))
      (ih (not_or.mp (mt List.mem_cons.mpr hs)).2)
    simp

/-- Pieces without a character of the separator are those of the text in which they stand with the
separator between them. -/
theorem piecesAt_intercalate (hfront : c ∉ front) {ps : List (List Char)} (hne : ps ≠ [])
    (h : ∀ p ∈ ps, c ∉ p) :
    piecesAt (front ++ c :: back) ((front ++ c :: back).intercalate ps) = ps := by
  induction ps with
  | nil => exact absurd rfl hne
  | cons p ps ih =>
    obtain ⟨hp, hps⟩ := List.forall_mem_cons.mp h
    cases ps with
    | nil => rw [List.intercalate_singleton, piecesAt_of_notMem hp]
    | cons q ps =>
      rw [List.intercalate_cons_cons, List.append_assoc, piecesAt_append_append hfront hp,
        ih (by simp) hps]

theorem count_intercalate {ps : List (List Char)} (h : ∀ p ∈ ps, c ∉ p) :
    (sep.intercalate ps).count c = (ps.length - 1) * sep.count c := by
  induction ps with
  | nil => simp
  | cons p ps ih =>
    obtain ⟨hp, hps⟩ := List.forall_mem_cons.mp h
    cases ps with
    | nil => simpa using List.count_eq_zero.mpr hp
    | cons q ps =>
      rw [List.intercalate_cons_cons, List.count_append, List.count_append, ih hps,
        List.count_eq_zero.mpr hp]
      simp [Nat.add_mul, Nat.add_comm]

end FrontendSync.Text
