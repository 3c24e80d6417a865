import Mathlib.Data.List.Infix
import Mathlib.Logic.Function.Basic
import FrontendSync.Disk.Basic

/-!
# Places on a disk

A place is a way of names from the working directory.  What stands at a place after something was
put on a disk: the new node itself, directories above it, and what was there before everywhere
else.
-/

namespace FrontendSync

namespace Node

theorem get?_append (n : Node) (u w : List String) :
    n.get? (u ++ w) = (n.get? u).bind (get? · w) := by
  induction u generalizing n with
  | nil => rfl
  | cons name u ih =>
    rw [List.cons_append, get?, get?, Option.bind_assoc]
    exact congrArg (n.child? name).bind (funext fun m ↦ ih m)

theorem get?_singleton (n : Node) (name : String) : n.get? [name] = n.child? name := by
  simp [get?]

theorem get?_of_entries_eq_nil {n : Node} (h : n.entries = []) {u : List String} (hu : u ≠ []) :
    n.get? u = none := by
  cases u with
  | nil => exact absurd rfl hu
  | cons name u => rw [get?, child?, h]; rfl

theorem lookup_cons (name : String) (m : Node) (es : List (String × Node)) (k : String) :
    ((name, m) :: es).lookup k = if k = name then some m else es.lookup k := by
  by_cases hk : k = name
  · rw [if_pos hk, hk, List.lookup_cons_self]
  · rw [if_neg hk, List.lookup_cons, beq_eq_false_iff_ne.mpr hk]

theorem lookup_setEntry (name : String) (m : Node) (es : List (String × Node)) (k : String) :
    (setEntry name m es).lookup k = if k = name then some m else es.lookup k := by
  induction es with
  | nil => exact lookup_cons name m [] k
  | cons e es ih =>
    obtain ⟨l, n⟩ := e
    rw [setEntry]
    split
    · rename_i hl
      subst hl
      rw [lookup_cons, lookup_cons]
      split <;> rfl
    · split
      · exact lookup_cons name m _ k
      · rename_i hl _
        rw [lookup_cons, lookup_cons, ih]
        by_cases hk : k = name
        · rw [if_pos hk, if_pos hk, if_neg fun h ↦ hl (hk.symm.trans h)]
        · rw [if_neg hk, if_neg hk]

theorem child?_put_cons (n m : Node) (name : String) (v : List String) (k : String) :
    (n.put m (name :: v)).child? k
      = if k = name then some (((n.child? name).getD (dir [])).put m v) else n.child? k :=
  lookup_setEntry name _ n.entries k

/-- Above its place a node is put into the directories that are there, or into new ones. -/
theorem get?_put_append (n m : Node) (u w : List String) :
    (n.put m (u ++ w)).get? u = some (((n.get? u).getD (dir [])).put m w) := by
  induction u generalizing n with
  | nil => rfl
  | cons name u ih =>
    rw [List.cons_append, get?, child?_put_cons, if_pos rfl, Option.bind_some, ih, get?]
    cases n.child? name with
    | some c => rfl
    | none => cases u <;> rfl

/-- Elsewhere nothing changes, if there are no entries to lose or to gain. -/
theorem get?_put_of_not_prefix {n m : Node} {u v : List String} (h : ¬ u <+: v)
    (hm : m.entries = []) (hn : ∀ k, n.get? v = some k → k.entries = []) :
    (n.put m v).get? u = n.get? u := by
  induction v generalizing n u with
  | nil =>
    have hu : u ≠ [] := fun hu ↦ h (hu ▸ List.nil_prefix)
    rw [put, get?_of_entries_eq_nil hm hu, get?_of_entries_eq_nil (hn n rfl) hu]
  | cons name v ih =>
    cases u with
    | nil => exact absurd List.nil_prefix h
    | cons k u =>
      rw [get?, get?, child?_put_cons]
      split
      · rename_i hk
        subst hk
        have hu : ¬ u <+: v := fun hu ↦ h (List.cons_prefix_cons.mpr ⟨rfl, hu⟩)
        rw [Option.bind_some]
        cases hchild : n.child? k with
        | some c =>
          exact ih hu fun k' hk' ↦ hn k' (by rw [get?, hchild]; exact hk')
        | none =>
          have hne : u ≠ [] := fun he ↦ hu (he ▸ List.nil_prefix)
          have hnew : ∀ k', (dir []).get? v = some k' → k'.entries = [] := by
            intro k' hk'
            cases v with
            | nil => obtain rfl := Option.some.inj hk'; rfl
            | cons _ _ => simp [get?, child?, entries] at hk'
          exact (ih hu hnew).trans (get?_of_entries_eq_nil rfl hne)
      · rfl

end Node

/-- What stands at a place. -/
inductive Spot where
  | dir
  | file (bytes : ByteArray)

instance (spot : Option Spot) : Decidable (spot = some .dir) :=
  match spot with
  | some .dir => isTrue rfl
  | some (.file _) => isFalse nofun
  | none => isFalse nofun

def Spot.bytes? : Spot → Option ByteArray
  | dir => none
  | file bytes => some bytes

def Node.spot : Node → Spot
  | dir _ => .dir
  | file bytes => .file bytes

namespace Disk

variable {d d' : Disk}

def spot? (d : Disk) (v : List String) : Option Spot := (d.top.get? v).map Node.spot

/-- The bytes of the file at a place. -/
def bytes? (d : Disk) (v : List String) : Option ByteArray := (d.spot? v).bind Spot.bytes?

theorem spot?_eq_dir_iff {v : List String} :
    d.spot? v = some .dir ↔ ∃ es, d.top.get? v = some (.dir es) := by
  rw [spot?]
  cases d.top.get? v with
  | none => simp
  | some n => cases n <;> simp [Node.spot]

theorem spot?_eq_file_iff {v : List String} {bytes : ByteArray} :
    d.spot? v = some (.file bytes) ↔ d.top.get? v = some (.file bytes) := by
  rw [spot?]
  cases d.top.get? v with
  | none => simp
  | some n => cases n <;> simp [Node.spot]

theorem bytes?_eq_some_iff {v : List String} {bytes : ByteArray} :
    d.bytes? v = some bytes ↔ d.spot? v = some (.file bytes) := by
  rw [bytes?]
  cases d.spot? v with
  | none => simp
  | some spot => cases spot <;> simp [Spot.bytes?]

theorem spot?_eq_none_iff {v : List String} : d.spot? v = none ↔ d.top.get? v = none :=
  Option.map_eq_none_iff

/-- Only directories stand above something. -/
theorem spot?_of_prefix {u v : List String} (h : d.spot? v ≠ none) (huv : u <+: v) (hne : u ≠ v) :
    d.spot? u = some .dir := by
  obtain ⟨w, rfl⟩ := huv
  have hw : w ≠ [] := fun hw ↦ hne (by rw [hw, List.append_nil])
  rw [Ne, spot?_eq_none_iff, Node.get?_append] at h
  rw [spot?_eq_dir_iff]
  cases hget : d.top.get? u with
  | none => simp [hget] at h
  | some n =>
    cases n with
    | dir es => exact ⟨es, rfl⟩
    | file bytes =>
      rw [hget, Option.bind_some, Node.get?_of_entries_eq_nil rfl hw] at h
      exact absurd rfl h

theorem spot?_dropLast {v : List String} (h : d.spot? v = some .dir) :
    d.spot? v.dropLast = some .dir := by
  by_cases hne : v.dropLast = v
  · rwa [hne]
  · exact spot?_of_prefix (by simp [h]) (List.dropLast_prefix v) hne

/-- A disk with a file or an empty directory at a place in a directory. -/
def putAt (d : Disk) (v : List String) (m : Node) : Disk := ⟨d.top.put m v⟩

section PutAt

variable {v : List String} {name : String} {m : Node}

theorem entries_eq_nil_of_spot? {u : List String} (h : d.spot? u ≠ some .dir) (k : Node)
    (hk : d.top.get? u = some k) : k.entries = [] := by
  cases k with
  | file bytes => rfl
  | dir es => exact absurd (spot?_eq_dir_iff.mpr ⟨es, hk⟩) h

theorem get?_putAt_of_not_prefix {u : List String} (hu : ¬ u <+: v) (hm : m.entries = [])
    (hold : d.spot? v ≠ some .dir) : (d.putAt v m).top.get? u = d.top.get? u :=
  Node.get?_put_of_not_prefix hu hm (entries_eq_nil_of_spot? hold)

theorem spot?_putAt (hparent : d.spot? v = some .dir) (hm : m.entries = [])
    (hold : d.spot? (v ++ [name]) ≠ some .dir) :
    (d.putAt (v ++ [name]) m).spot? = Function.update d.spot? (v ++ [name]) (some m.spot) := by
  funext u
  by_cases hu : u = v ++ [name]
  · subst hu
    have hget := Node.get?_put_append d.top m (v ++ [name]) []
    rw [List.append_nil] at hget
    rw [Function.update_self, spot?, putAt, hget]
    rfl
  · rw [Function.update_of_ne hu]
    by_cases hprefix : u <+: v ++ [name]
    · -- `u` is at or above the parent, a directory before and after
      obtain ⟨w, hw⟩ := hprefix
      have hne : w ≠ [] := fun h ↦ hu (by rw [← hw, h, List.append_nil])
      have huv : u <+: v := by
        rcases List.prefix_concat_iff.mp ⟨w, hw⟩ with h | h
        · exact absurd h hu
        · exact h
      have hdir : d.spot? u = some .dir := by
        by_cases huv' : u = v
        · rwa [huv']
        · exact spot?_of_prefix (by simp [hparent]) huv huv'
      have hget := Node.get?_put_append d.top m u w
      rw [hw] at hget
      rw [hdir, spot?, putAt, hget]
      cases w with
      | nil => exact absurd rfl hne
      | cons _ _ => rfl
    · rw [spot?, get?_putAt_of_not_prefix hprefix hm hold, ← spot?]

theorem bytes?_putAt (hparent : d.spot? v = some .dir) (hm : m.entries = [])
    (hold : d.spot? (v ++ [name]) ≠ some .dir) :
    (d.putAt (v ++ [name]) m).bytes? = Function.update d.bytes? (v ++ [name]) m.spot.bytes? := by
  funext u
  rw [bytes?, spot?_putAt hparent hm hold, Function.update_apply, Function.update_apply]
  split <;> rfl

end PutAt

end Disk

end FrontendSync
