import FrontendSync.Php.Lexeme
import FrontendSync.Proofs.Text.Property
import FrontendSync.Text.Upper

/-!
# Upper case

The upper case of the characters of names: of letters in general, and of the first characters.
-/

namespace FrontendSync.Text

open Php.Lexeme (isNameChar)

theorem isNameChar_ofNat {n : Nat} (hvalid : n.isValidChar)
    (h : 0x80 ≤ n ∨ 0x41 ≤ n ∧ n ≤ 0x5A) : isNameChar (Char.ofNat n) = true := by
  have htoNat : (Char.ofNat n).toNat = n := by
    unfold Char.ofNat
    rw [dif_pos hvalid]
    rfl
  simp only [isNameChar, Char.isAlphanum, Bool.or_eq_true, isAlpha_iff, decide_eq_true_eq, htoNat]
  rcases h with h | hupper
  · exact .inr h
  · exact .inl (.inl (.inl (.inl hupper)))

/-- The upper case of a character of names consists of such characters. -/
theorem isNameChar_of_mem_upper {c d : Char} (hc : isNameChar c = true ∨ c = '\\')
    (hd : d ∈ upper c) : isNameChar d = true ∨ d = '\\' := by
  have hexpansions : ∀ e ∈ upperExpansions, ∀ n ∈ e.2, n.isValidChar ∧
      (0x80 ≤ n ∨ 0x41 ≤ n ∧ n ≤ 0x5A) := by decide +kernel
  have hruns : ∀ r ∈ upperRuns, (r.2.2.2 + (r.2.1 - r.1) < 0xD800 ∨
      0xDFFF < r.2.2.2 ∧ r.2.2.2 + (r.2.1 - r.1) < 0x110000) ∧
      (0x80 ≤ r.2.2.2 ∨ 0x41 ≤ r.2.2.2 ∧ r.2.2.2 + (r.2.1 - r.1) ≤ 0x5A) := by decide +kernel
  unfold upper at hd
  split at hd
  · rename_i expansion hlookup
    obtain ⟨_, _, happend, -⟩ := List.lookup_eq_some_iff.mp hlookup
    obtain ⟨n, hn, rfl⟩ := List.mem_map.mp hd
    obtain ⟨hvalid, hrange⟩ := hexpansions _ (happend ▸ List.mem_append_right _ List.mem_cons_self)
      n hn
    exact .inl (isNameChar_ofNat hvalid hrange)
  · split at hd
    · rename_i first last step target hrun
      obtain ⟨hvalid, hrange⟩ := hruns _ (List.mem_of_find?_eq_some hrun)
      have hfits := List.find?_some hrun
      simp only [Bool.and_eq_true, decide_eq_true_eq] at hfits hvalid hrange
      rw [List.mem_singleton.mp hd]
      refine .inl (isNameChar_ofNat ?_ ?_)
      · unfold Nat.isValidChar
        omega
      · omega
    · rwa [List.mem_singleton.mp hd]

/-! ## The first characters -/

/-- What holds of each of the first characters by its number holds of it. -/
theorem forall_of_lt {bound : Nat} {p : Char → Prop} (h : ∀ n < bound, p (Char.ofNat n)) {c : Char}
    (hc : c.toNat < bound) : p c :=
  Char.ofNat_toNat c ▸ h c.toNat hc

theorem upperRun?_of_lt {n : Nat} (h : n < 128) :
    upperRun? n = if 0x61 ≤ n ∧ n ≤ 0x7A then some (0x61, 0x7A, 1, 0x41) else none := by
  have hcons : upperRuns = (0x61, 0x7A, 1, 0x41) :: upperRuns.tail := rfl
  have hruns : ∀ r ∈ upperRuns.tail, 128 ≤ r.1 := by decide +kernel
  have htail : upperRuns.tail.find? (fun r ↦
      r.1 ≤ n && n ≤ r.2.1 && (n - r.1) % r.2.2.1 == 0) = none := by
    rw [List.find?_eq_none]
    intro r hr
    have hle := hruns r hr
    have hfirst : ¬ r.1 ≤ n := by omega
    simp [hfirst]
  rw [upperRun?, hcons, List.find?_cons, htail]
  by_cases hlower : 0x61 ≤ n ∧ n ≤ 0x7A
  · simp [hlower, Nat.mod_one]
  · have hfound : (decide (0x61 ≤ n) && decide (n ≤ 0x7A)) = false := by simpa using hlower
    simp only [hfound, Bool.false_and, if_neg hlower]

/-- The upper case of one of the first characters is one character. -/
theorem upper_of_lt {c : Char} (h : c.toNat < 128) : upper c = [c.toUpper] := by
  have hexpansions : ∀ e ∈ upperExpansions, 128 ≤ e.1 := by decide +kernel
  have hlookup : upperExpansions.lookup c.toNat = none := by
    rw [List.lookup_eq_none_iff]
    intro e he
    have hle := hexpansions e he
    exact bne_iff_ne.mpr (Nat.ne_of_lt (Nat.lt_of_lt_of_le h hle))
  have hupper : c.toUpper
      = if 0x61 ≤ c.toNat ∧ c.toNat ≤ 0x7A then Char.ofNat (0x41 + (c.toNat - 0x61)) else c :=
    forall_of_lt (p := fun c ↦ c.toUpper = if 0x61 ≤ c.toNat ∧ c.toNat ≤ 0x7A then
      Char.ofNat (0x41 + (c.toNat - 0x61)) else c) (by decide +kernel) h
  rw [upper, hlookup, upperRun?_of_lt h, hupper]
  by_cases hlower : 0x61 ≤ c.toNat ∧ c.toNat ≤ 0x7A
  · simp only [if_pos hlower]
  · simp only [if_neg hlower]

theorem toLower_toUpper_of_lt {c : Char} (h : c.toNat < 128) : c.toUpper.toLower = c.toLower :=
  forall_of_lt (p := fun c ↦ c.toUpper.toLower = c.toLower) (by decide +kernel) h

end FrontendSync.Text
