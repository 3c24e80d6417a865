import FrontendSync.Proofs.Locale.Tree
import FrontendSync.Proofs.Ordered

/-!
# Places in locale data

A place in a tree is given by the keys and the positions on the way to it.
-/

namespace FrontendSync.Tree

/-- A step into a tree: to the member of a map, or to the item of a list. -/
inductive Step where
  | key (k : String)
  | index (i : Nat)
deriving DecidableEq, Repr

/-- The tree at a place below another one. -/
def at? : Tree → List Step → Option Tree
  | t, [] => some t
  | map ms, .key k :: place => (Ordered.get? k ms).bind fun t ↦ t.at? place
  | list ts, .index i :: place => ts[i]?.bind fun t ↦ t.at? place
  | _, _ :: _ => none

variable {t u v : Tree} {ms : Members} {ts : List Tree} {k : String} {i : Nat} {step : Step}
  {place : List Step}

@[simp] theorem at?_nil (t : Tree) : t.at? [] = some t := by cases t <;> rfl

theorem at?_key (ms : Members) (k : String) (place : List Step) :
    (map ms).at? (.key k :: place) = (Ordered.get? k ms).bind fun t ↦ t.at? place := rfl

theorem at?_index (ts : List Tree) (i : Nat) (place : List Step) :
    (list ts).at? (.index i :: place) = ts[i]?.bind fun t ↦ t.at? place := rfl

/-- A step leads to a member of a map or to an item of a list. -/
theorem at?_cons_eq_some_iff : t.at? (step :: place) = some u ↔
    (∃ ms k v, t = map ms ∧ step = .key k ∧ Ordered.get? k ms = some v ∧ v.at? place = some u) ∨
      ∃ ts i v, t = list ts ∧ step = .index i ∧ ts[i]? = some v ∧ v.at? place = some u := by
  constructor
  · intro h
    match t, step with
    | map ms, .key k =>
      obtain ⟨v, hv, hu⟩ := Option.bind_eq_some_iff.mp h
      exact .inl ⟨ms, k, v, rfl, rfl, hv, hu⟩
    | list ts, .index i =>
      obtain ⟨v, hv, hu⟩ := Option.bind_eq_some_iff.mp h
      exact .inr ⟨ts, i, v, rfl, rfl, hv, hu⟩
  · rintro (⟨ms, k, v, rfl, rfl, hv, hu⟩ | ⟨ts, i, v, rfl, rfl, hv, hu⟩)
    · rw [at?_key, hv, Option.bind_some, hu]
    · rw [at?_index, hv, Option.bind_some, hu]

/-- Several steps lead where the first one and then the others do. -/
theorem at?_cons_eq_some_iff_exists : t.at? (step :: place) = some u ↔
    ∃ v, t.at? [step] = some v ∧ v.at? place = some u := by
  simp only [at?_cons_eq_some_iff, at?_nil, Option.some.injEq]
  constructor
  · rintro (⟨ms, k, v, rfl, rfl, hv, hu⟩ | ⟨ts, i, v, rfl, rfl, hv, hu⟩)
    · exact ⟨v, .inl ⟨ms, k, v, rfl, rfl, hv, rfl⟩, hu⟩
    · exact ⟨v, .inr ⟨ts, i, v, rfl, rfl, hv, rfl⟩, hu⟩
  · rintro ⟨v, ⟨ms, k, _, rfl, rfl, hv, rfl⟩ | ⟨ts, i, _, rfl, rfl, hv, rfl⟩, hu⟩
    · exact .inl ⟨ms, k, _, rfl, rfl, hv, hu⟩
    · exact .inr ⟨ts, i, _, rfl, rfl, hv, hu⟩

/-- Every tree inside of a well-formed one is well-formed. -/
theorem WellFormed.of_at? (h : t.WellFormed) (hu : t.at? place = some u) : u.WellFormed := by
  induction place generalizing t with
  | nil =>
    rw [at?_nil] at hu
    exact Option.some.inj hu ▸ h
  | cons step place ih =>
    rcases at?_cons_eq_some_iff.mp hu with
      ⟨ms, k, v, rfl, -, hv, hu⟩ | ⟨ts, i, v, rfl, -, hv, hu⟩
    · exact ih ((wellFormed_map_iff.mp h).2 _ (Ordered.mem_of_get?_eq_some hv)) hu
    · exact ih (wellFormed_list_iff.mp h v (List.mem_of_getElem? hv)) hu

end FrontendSync.Tree
