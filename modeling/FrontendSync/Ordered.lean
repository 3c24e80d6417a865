/-!
# Ordered members

A list of pairs used as a map that remembers the order of its keys.  Inserting under a key that
is present replaces the value and keeps the position; a new key goes to the end.
-/

namespace FrontendSync.Ordered

variable {κ : Type} {α : Type} [DecidableEq κ]

def keys (m : List (κ × α)) : List κ := m.map Prod.fst

def get? (k : κ) : List (κ × α) → Option α
  | [] => none
  | (k', v) :: m => if k' = k then some v else get? k m

def insert (k : κ) (v : α) : List (κ × α) → List (κ × α)
  | [] => [(k, v)]
  | (k', w) :: m => if k' = k then (k, v) :: m else (k', w) :: insert k v m

/-- An insertion together with the value that it replaces. -/
def replace (k : κ) (v : α) : List (κ × α) → Option α × List (κ × α)
  | [] => (none, [(k, v)])
  | (k', w) :: m =>
    if k' = k then (some w, (k, v) :: m)
    else
      let (old, m) := replace k v m
      (old, (k', w) :: m)

/-- Every member of `other` is inserted in order. -/
def insertAll (m other : List (κ × α)) : List (κ × α) :=
  other.foldl (fun m p ↦ insert p.1 p.2 m) m

def ofList (members : List (κ × α)) : List (κ × α) := insertAll [] members

def erase (k : κ) : List (κ × α) → List (κ × α)
  | [] => []
  | (k', w) :: m => if k' = k then m else (k', w) :: erase k m

/-- A removal together with the value that was there. -/
def remove (k : κ) : List (κ × α) → Option α × List (κ × α)
  | [] => (none, [])
  | (k', w) :: m =>
    if k' = k then (some w, m)
    else
      let (old, m) := remove k m
      (old, (k', w) :: m)

def contains (k : κ) (m : List (κ × α)) : Bool := (get? k m).isSome

@[simp] theorem get?_nil (k : κ) : get? k ([] : List (κ × α)) = none := rfl

@[simp] theorem replace_eq (k : κ) (v : α) (m : List (κ × α)) :
    replace k v m = (get? k m, insert k v m) := by
  induction m with
  | nil => rfl
  | cons p m ih =>
    obtain ⟨k', w⟩ := p
    rw [replace, get?, insert, ih]
    split <;> rfl

@[simp] theorem remove_eq (k : κ) (m : List (κ × α)) : remove k m = (get? k m, erase k m) := by
  induction m with
  | nil => rfl
  | cons p m ih =>
    obtain ⟨k', w⟩ := p
    rw [remove, get?, erase, ih]
    split <;> rfl

theorem get?_insert (k j : κ) (v : α) (m : List (κ × α)) :
    get? j (insert k v m) = if k = j then some v else get? j m := by
  induction m with
  | nil => simp [insert, get?]
  | cons p m ih =>
    obtain ⟨k', w⟩ := p
    by_cases hk : k' = k
    · subst hk; by_cases hj : k' = j <;> simp [insert, get?, hj]
    · by_cases hj : k' = j
      · subst hj; simp [insert, get?, hk, Ne.symm hk]
      · simp [insert, get?, hk, hj, ih]

end FrontendSync.Ordered
