import FrontendSync.Locale.Tree

/-!
# Shapes of trees

What holds of every map that members were put into one by one, trees without floating point
numbers, and how deep containers are nested.
-/

namespace FrontendSync.Tree

/-- Integers have 64 bits, and no key stands twice in a map. -/
inductive WellFormed : Tree → Prop
  | null : WellFormed .null
  | bool (b : Bool) : WellFormed (.bool b)
  | int {n : Int} : Decimal.fits n = true → WellFormed (.int n)
  | float (x : Binary64) : WellFormed (.float x)
  | text (s : String) : WellFormed (.text s)
  | list {ts : List Tree} : (∀ t ∈ ts, WellFormed t) → WellFormed (.list ts)
  | map {ms : Members} : (Ordered.keys ms).Nodup → (∀ m ∈ ms, WellFormed m.2) →
      WellFormed (.map ms)

/-- A tree without floating point numbers. -/
inductive FloatFree : Tree → Prop
  | null : FloatFree .null
  | bool (b : Bool) : FloatFree (.bool b)
  | int (n : Int) : FloatFree (.int n)
  | text (s : String) : FloatFree (.text s)
  | list {ts : List Tree} : (∀ t ∈ ts, FloatFree t) → FloatFree (.list ts)
  | map {ms : Members} : (∀ m ∈ ms, FloatFree m.2) → FloatFree (.map ms)

attribute [simp] WellFormed.null WellFormed.bool WellFormed.float WellFormed.text
  FloatFree.null FloatFree.bool FloatFree.int FloatFree.text

@[simp] theorem wellFormed_int_iff {n : Int} : WellFormed (.int n) ↔ Decimal.fits n = true :=
  ⟨fun | .int h => h, .int⟩

@[simp] theorem wellFormed_list_iff {ts : List Tree} :
    WellFormed (.list ts) ↔ ∀ t ∈ ts, WellFormed t := ⟨fun | .list h => h, .list⟩

@[simp] theorem wellFormed_map_iff {ms : Members} :
    WellFormed (.map ms) ↔ (Ordered.keys ms).Nodup ∧ ∀ m ∈ ms, WellFormed m.2 :=
  ⟨fun | .map hnodup h => ⟨hnodup, h⟩, fun h ↦ .map h.1 h.2⟩

@[simp] theorem floatFree_list_iff {ts : List Tree} :
    FloatFree (.list ts) ↔ ∀ t ∈ ts, FloatFree t := ⟨fun | .list h => h, .list⟩

@[simp] theorem floatFree_map_iff {ms : Members} :
    FloatFree (.map ms) ↔ ∀ m ∈ ms, FloatFree m.2 := ⟨fun | .map h => h, .map⟩

/-! ## Nesting -/

mutual

/-- The number of containers around the innermost place of a tree, its own included. -/
def nesting : Tree → Nat
  | list ts => itemNesting ts + 1
  | map ms => memberNesting ms + 1
  | _ => 0

def memberNesting : Members → Nat
  | [] => 0
  | (_, t) :: ms => max (nesting t) (memberNesting ms)

def itemNesting : List Tree → Nat
  | [] => 0
  | t :: ts => max (nesting t) (itemNesting ts)

end

theorem memberNesting_le_iff {ms : Members} {n : Nat} :
    memberNesting ms ≤ n ↔ ∀ m ∈ ms, nesting m.2 ≤ n := by
  induction ms with
  | nil => simp [memberNesting]
  | cons m ms ih => rw [memberNesting, Nat.max_le, ih, List.forall_mem_cons]

theorem itemNesting_le_iff {ts : List Tree} {n : Nat} :
    itemNesting ts ≤ n ↔ ∀ t ∈ ts, nesting t ≤ n := by
  induction ts with
  | nil => simp [itemNesting]
  | cons t ts ih => rw [itemNesting, Nat.max_le, ih, List.forall_mem_cons]

end FrontendSync.Tree
