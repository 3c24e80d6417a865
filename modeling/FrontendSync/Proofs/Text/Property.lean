import FrontendSync.Text.Blank
import FrontendSync.Text.Letter

/-!
# Disjoint properties

Two tables of ranges describe disjoint properties of characters if no range of the one meets a
range of the other, which is checked by comparing their ends.
-/

namespace FrontendSync.Text

/-- A code point within a table lies in one of its ranges. -/
theorem exists_of_within {ranges : List (Nat × Nat)} {n : Nat} (h : within ranges n = true) :
    ∃ r ∈ ranges, r.1 ≤ n ∧ n ≤ r.2 := by
  induction ranges with
  | nil => simp [within] at h
  | cons r ranges ih =>
    obtain ⟨lo, hi⟩ := r
    simp only [within] at h
    split at h
    · simp at h
    · rename_i hlo
      simp only [Bool.or_eq_true, decide_eq_true_eq] at h
      obtain hhi | hmore := h
      · exact ⟨(lo, hi), List.mem_cons_self, Nat.le_of_not_lt hlo, hhi⟩
      · obtain ⟨r, hr, hn⟩ := ih hmore
        exact ⟨r, List.mem_cons_of_mem _ hr, hn⟩

/-- Whether no range of one table meets a range of the other. -/
def areDisjoint (one other : List (Nat × Nat)) : Bool :=
  one.all fun a ↦ other.all fun b ↦ a.2 < b.1 || b.2 < a.1

theorem within_eq_false_of_areDisjoint {one other : List (Nat × Nat)}
    (h : areDisjoint one other = true) {n : Nat} (hn : within one n = true) :
    within other n = false := by
  refine Bool.eq_false_iff.mpr fun hm ↦ ?_
  obtain ⟨a, ha, ha₁, ha₂⟩ := exists_of_within hn
  obtain ⟨b, hb, hb₁, hb₂⟩ := exists_of_within hm
  have hab := List.all_eq_true.mp (List.all_eq_true.mp h a ha) b hb
  simp only [Bool.or_eq_true, decide_eq_true_eq] at hab
  omega

/-- A blank is no letter. -/
theorem isLetter_eq_false_of_isBlank {c : Char} (h : isBlank c = true) : isLetter c = false :=
  within_eq_false_of_areDisjoint (by decide +kernel) h

theorem within_of_isDigit {c : Char} (h : c.isDigit = true) :
    within [('0'.toNat, '9'.toNat)] c.toNat = true := by
  simp only [Char.isDigit, Bool.and_eq_true, decide_eq_true_eq] at h
  have h₀ : '0'.toNat ≤ c.toNat := h.1
  have h₉ : c.toNat ≤ '9'.toNat := h.2
  simpa [within] using ⟨h₀, h₉⟩

/-- A digit is no letter. -/
theorem isLetter_eq_false_of_isDigit {c : Char} (h : c.isDigit = true) : isLetter c = false :=
  within_eq_false_of_areDisjoint (by decide +kernel) (within_of_isDigit h)

/-- A digit is no blank. -/
theorem isBlank_eq_false_of_isDigit {c : Char} (h : c.isDigit = true) : isBlank c = false :=
  within_eq_false_of_areDisjoint (by decide) (within_of_isDigit h)

/-! ## The ASCII range -/

theorem within_cons_of_le {lo hi n : Nat} (ranges : List (Nat × Nat)) (hlo : lo ≤ n)
    (hhi : n ≤ hi) : within ((lo, hi) :: ranges) n = true := by
  simp [within, Nat.not_lt.mpr hlo, hhi]

theorem within_cons_of_gt {lo hi n : Nat} (ranges : List (Nat × Nat)) (hlo : lo ≤ n)
    (hhi : hi < n) : within ((lo, hi) :: ranges) n = within ranges n := by
  simp [within, Nat.not_lt.mpr hlo, Nat.not_le.mpr hhi]

theorem isAlpha_iff {c : Char} : c.isAlpha = true
    ↔ 0x41 ≤ c.toNat ∧ c.toNat ≤ 0x5A ∨ 0x61 ≤ c.toNat ∧ c.toNat ≤ 0x7A := by
  unfold Char.isAlpha Char.isUpper Char.isLower
  simp only [Bool.or_eq_true, Bool.and_eq_true, decide_eq_true_eq]
  exact Iff.rfl

/-- A letter of the ASCII range is a letter. -/
theorem isLetter_of_isAlpha {c : Char} (h : c.isAlpha = true) : isLetter c = true := by
  obtain ⟨hlo, hhi⟩ | ⟨hlo, hhi⟩ := isAlpha_iff.mp h
  · exact within_cons_of_le _ hlo hhi
  · refine (within_cons_of_gt _ (by omega) (by omega)).trans ?_
    exact within_cons_of_le _ hlo hhi

/-- A letter of the ASCII range is no blank. -/
theorem isBlank_eq_false_of_isAlpha {c : Char} (h : c.isAlpha = true) : isBlank c = false := by
  refine Bool.eq_false_iff.mpr fun hblank ↦ ?_
  have hletter := isLetter_eq_false_of_isBlank hblank
  rw [isLetter_of_isAlpha h] at hletter
  simp at hletter

theorem isLetterOrNumeral_of_isAlphanum {c : Char} (h : c.isAlphanum = true) :
    isLetterOrNumeral c = true := by
  simp only [Char.isAlphanum, Bool.or_eq_true] at h
  simp only [isLetterOrNumeral, Bool.or_eq_true]
  refine h.imp isLetter_of_isAlpha fun hd ↦ ?_
  simp only [Char.isDigit, Bool.and_eq_true, decide_eq_true_eq] at hd
  exact within_cons_of_le _ (show 0x30 ≤ c.toNat from hd.1) (show c.toNat ≤ 0x39 from hd.2)

end FrontendSync.Text
