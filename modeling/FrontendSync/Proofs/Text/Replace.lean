import FrontendSync.Text.Lines

/-!
# Replacement, occurrence by occurrence

How a replacement goes on at an occurrence of what it replaces, and where there is none.
-/

namespace FrontendSync.Text

variable {old : List Char}

theorem replace_nil (old new : List Char) : replace old new [] = [] := by
  rw [replace]

theorem replace_append (hne : old ≠ []) (new s : List Char) :
    replace old new (old ++ s) = new ++ replace old new s := by
  obtain ⟨c, old, rfl⟩ := List.exists_cons_of_ne_nil hne
  rw [List.cons_append, replace]
  split
  · rename_i rest hrest
    rw [← List.cons_append, stripStart?_append] at hrest
    rw [Option.some.inj hrest]
  · rename_i hrest
    rw [← List.cons_append, stripStart?_append] at hrest
    exact absurd hrest (by simp)

theorem replace_cons {c : Char} {s : List Char} (h : ¬ old <+: c :: s) (new : List Char) :
    replace old new (c :: s) = c :: replace old new s := by
  cases old with
  | nil => exact absurd (List.nil_prefix) h
  | cons d old =>
    rw [replace]
    split
    · rename_i rest hrest
      exact absurd ⟨rest, (eq_append_of_stripStart? hrest).symm⟩ h
    · rfl

/-- A single character is looked for at every place. -/
theorem replace_singleton_cons (d : Char) (new : List Char) (c : Char) (s : List Char) :
    replace [d] new (c :: s) = (if c = d then new else [c]) ++ replace [d] new s := by
  split
  · rename_i hc
    rw [hc]
    exact replace_append (List.cons_ne_nil d []) new s
  · rename_i hc
    refine replace_cons (fun hprefix ↦ hc ?_) new
    exact (List.cons_prefix_cons.mp hprefix).1.symm

end FrontendSync.Text
