import FrontendSync.Proofs.Locale.Expansion
import FrontendSync.Proofs.Locale.FirstWritten
import FrontendSync.Proofs.Locale.Syntax.Parameter
import FrontendSync.Proofs.Locale.Syntax.Plural

/-!
# Plural texts in lists

A text in a list cannot become several members.  The adapter for i18next keeps it whole if it would;
but a text whose segments all select one form becomes the text of its first segment, which is the
whole text only if nothing else is in it.
-/

namespace FrontendSync.Locale

open FrontendSync.Text FrontendSync.Tree

/-- Two segments of a text select different forms. -/
def SelectsTwo (s : String) : Prop :=
  ∃ f ∈ Ordered.keys (selected s), ∃ g ∈ Ordered.keys (selected s), f ≠ g

instance (s : String) : Decidable (SelectsTwo s) := List.decidableBEx _ _

/-- A text is one segment, with no marker at its front and no blanks at its ends. -/
def IsBare (s : String) : Prop := segments s.toList = [⟨none, s.toList⟩]

instance (s : String) : Decidable (IsBare s) := inferInstanceAs (Decidable (_ = _))

variable {s : String} {first : List Char} {more : List (List Char)}

/-- What is taken off the first segment of a text, and the segments behind it, are missing in the
text that replaces it. -/
theorem isBare_of_substitute_eq (h : pieces '|' s.toList = first :: more)
    (heq : Brackets.double.substitute (Segment.ofText first).text
      = Brackets.double.substitute s.toList) : IsBare s := by
  obtain ⟨front, back, hfirst, hcolon, hback, hbare⟩ := exists_eq_append_ofText first
  have hsub : Brackets.double.substitute first
      = front ++ (Brackets.double.substitute (Segment.ofText first).text ++ back) := by
    conv_lhs => rw [hfirst]
    exact substitute_append_append hcolon hback _
  have hs := join_pieces '|' s.toList
  rw [h] at hs
  cases more with
  | nil =>
    have hs : first = s.toList := hs
    rw [heq, hs] at hsub
    have hlength := congrArg List.length hsub
    simp only [List.length_append] at hlength
    have hnone := hbare (List.length_eq_zero_iff.mp (by omega))
      (List.length_eq_zero_iff.mp (by omega))
    rw [IsBare, segments, h, List.map_singleton, hnone, hs]
  | cons piece more =>
    have hs : first ++ '|' :: join '|' (piece :: more) = s.toList := hs
    have hrest : Brackets.double.substitute s.toList = Brackets.double.substitute first
        ++ Brackets.double.substitute ('|' :: join '|' (piece :: more)) := by
      rw [← hs]
      exact substitute_append_cons (by decide) _ _
    have hbar : Brackets.double.substitute ('|' :: join '|' (piece :: more)) ≠ [] := by
      rw [Brackets.substitute, substitute_cons_of_ne (by decide)]
      exact List.cons_ne_nil _ _
    have hpos := List.length_pos_of_ne_nil hbar
    have hlength := congrArg List.length (heq.trans hrest)
    rw [hsub] at hlength
    simp only [List.length_append] at hlength
    omega

theorem selected_eq_cons (h : pieces '|' s.toList = first :: more) : ∃ rest, selected s
    = ((Segment.ofText first).form.getD .one, (Segment.ofText first).text) :: rest := by
  rw [selected, segments, h, List.map_cons, List.mapIdx_cons, if_pos rfl]
  exact ⟨_, rfl⟩

/-- A plural text in a list is kept exactly if it selects two forms or is nothing but its
segment. -/
theorem item_eq_braced_iff (hs : isPlural s.toList = true) :
    Adapter.i18next.item s = .text (braced s.toList) ↔ SelectsTwo s ∨ IsBare s := by
  obtain ⟨first, more, hpieces⟩ := List.exists_cons_of_ne_nil (pieces_ne_nil '|' s.toList)
  obtain ⟨rest, hselected⟩ := selected_eq_cons hpieces
  have hitem := itemExpands_item (fun _ _ ↦ False) s
  generalize Adapter.i18next.item s = u at hitem ⊢
  cases hitem with
  | @single _ k t _ hexpand =>
    -- the only form is that of the first segment
    obtain ⟨form, hforms, heq⟩ := List.map_eq_singleton_iff.mp hexpand.forms.symm
    have honly : ∀ f ∈ Ordered.keys (selected s), f = form := fun f hf ↦
      List.mem_singleton.mp (hforms ▸ List.mem_eraseDups.mpr hf)
    have hform : (Segment.ofText first).form.getD .one = form := by
      apply honly
      rw [hselected]
      exact List.mem_cons_self
    have htext : firstText (selected s) form = (Segment.ofText first).text := by
      rw [firstText, hselected, Ordered.get?, if_pos hform, Option.getD_some]
    obtain ⟨-, rfl⟩ := Prod.mk.inj heq
    rw [htext]
    constructor
    · intro hkept
      have hbraced := String.ofList_injective (Tree.text.inj hkept)
      exact .inr (isBare_of_substitute_eq hpieces hbraced)
    · rintro (⟨f, hf, g, hg, hne⟩ | hbare)
      · exact absurd ((honly f hf).trans (honly g hg).symm) hne
      · rw [IsBare, segments, hpieces, List.map_cons] at hbare
        rw [(List.cons.inj hbare).1]
  | several _ hexpand hseveral =>
    rw [hexpand.forms, List.length_map] at hseveral
    -- the forms are distinct, so the first one and the second one are two
    have hmem {n : Nat} (hn : n < (Ordered.keys (selected s)).eraseDups.length) :
        (Ordered.keys (selected s)).eraseDups[n] ∈ Ordered.keys (selected s) :=
      List.mem_eraseDups.mp (List.getElem_mem hn)
    have hfirst := Nat.lt_trans Nat.zero_lt_one hseveral
    refine iff_of_true rfl (.inl ⟨_, hmem hfirst, _, hmem hseveral, fun heq ↦ ?_⟩)
    exact Nat.zero_ne_one ((nodup_eraseDups _).getElem_inj_iff.mp heq)
  | plain hplain => exact Bool.noConfusion (hplain.symm.trans hs)
  | other hne => exact absurd rfl (hne s)

/-- A list below a list with a text that selects two forms. -/
def nestedLines : Members :=
  [("lines", .list [.null, .list [.text "{0} No :x|[2,*] :count"]])]

/-- A text with two segments for one form. -/
def doubledLines : Members := [("lines", .list [.text "[2,*] :a|[3,*] :b"])]

end FrontendSync.Locale
