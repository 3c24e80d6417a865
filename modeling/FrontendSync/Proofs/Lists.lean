import Mathlib.Algebra.Order.BigOperators.Group.List
import Mathlib.Algebra.Order.Group.Nat
import Mathlib.Data.List.Forall2
import Mathlib.Data.List.Infix
import Mathlib.Data.List.Nodup
import Mathlib.Data.List.Perm.Basic

/-!
# Lists

Steps that can fail, one for each member of a list, lists from which repetitions are taken, lists
that are put together from pieces, and lists whose members have keys of their own.
-/

namespace FrontendSync

variable {α β ε : Type}

/-! ## Steps that can fail -/

theorem bind_eq_ok_iff {x : Except ε α} {f : α → Except ε β} {b : β} :
    x >>= f = .ok b ↔ ∃ a, x = .ok a ∧ f a = .ok b := by
  cases x <;> simp [bind, Except.bind]

theorem toOption_eq_some_iff {x : Except ε α} {a : α} : x.toOption = some a ↔ x = .ok a := by
  cases x <;> simp [Except.toOption]

/-- A result with a property that can be checked. -/
theorem exists_of_toOption {x : Except ε α} {P : α → Prop} (h : ∃ a ∈ x.toOption, P a) :
    ∃ a, x = .ok a ∧ P a := by
  obtain ⟨a, ha, hP⟩ := h
  exact ⟨a, toOption_eq_some_iff.mp ha, hP⟩

theorem map_eq_bind (x : Except ε α) (f : α → β) : x.map f = x >>= fun a ↦ pure (f a) := by
  cases x <;> rfl

/-- Where all members of a list are mapped, each result belongs to one of them. -/
theorem mapM_eq_ok_iff {f : α → Except ε β} {xs : List α} {ys : List β} :
    xs.mapM f = .ok ys ↔ List.Forall₂ (fun x y ↦ f x = .ok y) xs ys := by
  induction xs generalizing ys with
  | nil => cases ys <;> simp [pure, Except.pure]
  | cons x xs ih =>
    simp only [List.mapM_cons, bind_eq_ok_iff, ih]
    constructor
    · rintro ⟨y, hy, zs, hzs, h⟩
      obtain rfl := Except.ok.inj h
      exact .cons hy hzs
    · rintro (_ | ⟨hy, hzs⟩)
      exact ⟨_, hy, _, hzs, rfl⟩

theorem mapM_map {γ : Type} (f : α → Except ε β) (g : β → γ) (xs : List α) :
    xs.mapM (fun x ↦ (f x).map g) = (xs.mapM f).map (List.map g) := by
  induction xs with
  | nil => rfl
  | cons x xs ih =>
    rw [List.mapM_cons, List.mapM_cons, ih]
    cases f x with
    | error e => rfl
    | ok y => cases xs.mapM f <;> rfl

/-- What is made of the results belongs to the members as well. -/
theorem forall₂_map_iff {γ : Type} {f : α → Except ε β} {g : β → γ} {xs : List α} {zs : List γ} :
    List.Forall₂ (fun x z ↦ (f x).map g = .ok z) xs zs ↔
      ∃ ys, List.Forall₂ (fun x y ↦ f x = .ok y) xs ys ∧ zs = ys.map g := by
  rw [← mapM_eq_ok_iff, mapM_map, map_eq_bind]
  simp only [bind_eq_ok_iff, mapM_eq_ok_iff]
  constructor
  · rintro ⟨ys, hys, h⟩
    exact ⟨ys, hys, (Except.ok.inj h).symm⟩
  · rintro ⟨ys, hys, rfl⟩
    exact ⟨ys, hys, rfl⟩

theorem mapM_eq_some_iff {f : α → Option β} {xs : List α} {ys : List β} :
    xs.mapM f = some ys ↔ List.Forall₂ (fun x y ↦ f x = some y) xs ys := by
  induction xs generalizing ys with
  | nil => cases ys <;> simp
  | cons x xs ih =>
    simp only [List.mapM_cons, Option.bind_eq_bind, Option.bind_eq_some_iff, ih]
    constructor
    · rintro ⟨y, hy, zs, hzs, h⟩
      obtain rfl := Option.some.inj h
      exact .cons hy hzs
    · rintro (_ | ⟨hy, hzs⟩)
      exact ⟨_, hy, _, hzs, rfl⟩

theorem mapM_congr {f g : α → Except ε β} {xs : List α} (h : ∀ x ∈ xs, f x = g x) :
    xs.mapM f = xs.mapM g := by
  induction xs with
  | nil => rfl
  | cons x xs ih =>
    obtain ⟨hx, hxs⟩ := List.forall_mem_cons.mp h
    rw [List.mapM_cons, List.mapM_cons, hx, ih hxs]

theorem exists_forall₂_iff {R : α → β → Prop} {xs : List α} :
    (∃ ys, List.Forall₂ R xs ys) ↔ ∀ x ∈ xs, ∃ y, R x y := by
  induction xs with
  | nil => simp
  | cons x xs ih =>
    rw [List.forall_mem_cons, ← ih]
    constructor
    · rintro ⟨_, _ | ⟨hy, hys⟩⟩
      exact ⟨⟨_, hy⟩, _, hys⟩
    · rintro ⟨⟨y, hy⟩, ys, hys⟩
      exact ⟨y :: ys, .cons hy hys⟩

theorem exists_of_mem_of_forall₂ {R : α → β → Prop} {xs : List α} {ys : List β}
    (h : List.Forall₂ R xs ys) {y : β} (hy : y ∈ ys) : ∃ x ∈ xs, R x y := by
  induction h with
  | nil => simp at hy
  | cons hxy _ ih =>
    rcases List.mem_cons.mp hy with rfl | hy
    · exact ⟨_, List.mem_cons_self, hxy⟩
    · obtain ⟨x, hx, hR⟩ := ih hy
      exact ⟨x, List.mem_cons_of_mem _ hx, hR⟩

/-! ## Repetitions -/

theorem eraseDupsBy_sublist (r : α → α → Bool) (xs : List α) : (xs.eraseDupsBy r).Sublist xs := by
  cases xs with
  | nil => exact .slnil
  | cons x xs =>
    rw [List.eraseDupsBy_cons]
    exact ((eraseDupsBy_sublist r _).trans List.filter_sublist).cons_cons x
termination_by xs.length
decreasing_by simpa using Nat.lt_succ_of_le (List.length_filter_le _ xs)

theorem pairwise_eraseDupsBy (r : α → α → Bool) (xs : List α) :
    (xs.eraseDupsBy r).Pairwise fun x y ↦ r y x = false := by
  cases xs with
  | nil => exact .nil
  | cons x xs =>
    rw [List.eraseDupsBy_cons]
    refine .cons (fun y hy ↦ ?_) (pairwise_eraseDupsBy r _)
    simpa using (List.mem_filter.mp ((eraseDupsBy_sublist r _).subset hy)).2
termination_by xs.length
decreasing_by simpa using Nat.lt_succ_of_le (List.length_filter_le _ xs)

section EraseDups

variable [BEq α] [LawfulBEq α]

theorem eraseDups_filter (p : α → Bool) (xs : List α) :
    (xs.filter p).eraseDups = xs.eraseDups.filter p := by
  match xs with
  | [] => rfl
  | x :: xs =>
    have ih := eraseDups_filter p (xs.filter fun y ↦ !y == x)
    rw [List.eraseDups_cons]
    cases hx : p x with
    | true =>
      rw [List.filter_cons_of_pos hx, List.filter_cons_of_pos hx, List.eraseDups_cons, ← ih,
        List.filter_filter, List.filter_filter]
      simp only [Bool.and_comm]
    | false =>
      have hother : xs.filter (fun y ↦ p y && !y == x) = xs.filter p := by
        apply List.filter_congr
        intro y _
        by_cases hyx : y = x
        · simp [hyx, hx]
        · simp [hyx]
      rw [List.filter_cons_of_neg (by simp [hx]), List.filter_cons_of_neg (by simp [hx]), ← ih,
        List.filter_filter, hother]
termination_by xs.length
decreasing_by simpa using Nat.lt_succ_of_le (List.length_filter_le _ _)

theorem nodup_eraseDups (xs : List α) : xs.eraseDups.Nodup := by
  apply (pairwise_eraseDupsBy _ xs).imp
  rintro x _ hne rfl
  simp at hne

theorem eraseDups_of_nodup {xs : List α} (h : xs.Nodup) : xs.eraseDups = xs := by
  induction xs with
  | nil => rfl
  | cons x xs ih =>
    obtain ⟨hx, hxs⟩ := List.nodup_cons.mp h
    have hne : ∀ y ∈ xs, (!y == x) = true := by
      intro y hy
      rw [Bool.not_eq_true', beq_eq_false_iff_ne]
      rintro rfl
      exact hx hy
    rw [List.eraseDups_cons, List.filter_eq_self.mpr hne, ih hxs]

end EraseDups

/-- Members that are added unless they repeat one before them. -/
theorem foldl_addNew (r : α → α → Bool) (xs seen : List α) :
    xs.foldl (fun seen x ↦ if seen.any (r x) then seen else seen ++ [x]) seen
      = seen ++ (xs.filter fun x ↦ !seen.any (r x)).eraseDupsBy r := by
  induction xs generalizing seen with
  | nil => simp
  | cons x xs ih =>
    rw [List.foldl_cons, ih]
    cases hold : seen.any (r x) with
    | true => simp [hold]
    | false =>
      rw [if_neg Bool.false_ne_true, List.filter_cons_of_pos (by simp [hold]),
        List.eraseDupsBy_cons, List.filter_filter, List.append_assoc, List.singleton_append]
      -- what repeats neither one of those before nor the new one
      have hrest (y : α) : (!(seen ++ [x]).any (r y))
          = (decide (r y x = false) && !seen.any (r y)) := by
        rw [List.any_append, List.any_cons, List.any_nil]
        cases r y x <;> simp
      simp only [hrest]

theorem foldl_addNew_nil (r : α → α → Bool) (xs : List α) :
    xs.foldl (fun seen x ↦ if seen.any (r x) then seen else seen ++ [x]) []
      = xs.eraseDupsBy r := by
  have hall : (xs.filter fun x ↦ !([] : List α).any (r x)) = xs :=
    List.filter_eq_self.mpr fun _ _ ↦ rfl
  rw [foldl_addNew, hall, List.nil_append]

/-- Every member has a place among those that are kept, its own or that of a repetition. -/
theorem exists_mem_eraseDupsBy (r : α → α → Bool) {xs : List α} {x : α} (h : x ∈ xs) :
    ∃ y ∈ xs.eraseDupsBy r, x = y ∨ r x y = true := by
  match xs, h with
  | y :: xs, h =>
    rw [List.eraseDupsBy_cons]
    rcases List.mem_cons.mp h with rfl | hx
    · exact ⟨x, List.mem_cons_self, .inl rfl⟩
    · cases hxy : r x y with
      | true => exact ⟨y, List.mem_cons_self, .inr hxy⟩
      | false =>
        have hkept : x ∈ xs.filter fun b ↦ decide (r b y = false) :=
          List.mem_filter.mpr ⟨hx, by simp [hxy]⟩
        obtain ⟨z, hz, hsame⟩ := exists_mem_eraseDupsBy r hkept
        exact ⟨z, List.mem_cons_of_mem _ hz, hsame⟩
termination_by xs.length
decreasing_by simpa using Nat.lt_succ_of_le (List.length_filter_le _ _)

/-! ## Pieces -/

/-- The last member with a property divides a list: none after it has the property. -/
theorem getLast?_filter_eq_some_iff {p : α → Bool} {xs : List α} {x : α} :
    (xs.filter p).getLast? = some x ↔
      p x = true ∧ ∃ before after, xs = before ++ x :: after ∧ ∀ y ∈ after, p y = false := by
  rw [List.getLast?_filter, List.find?_eq_some_iff_append]
  apply and_congr_right
  intro _
  constructor
  · rintro ⟨after, before, hxs, hafter⟩
    refine ⟨before.reverse, after.reverse, ?_, ?_⟩
    · rw [List.reverse_eq_iff.mp hxs]
      simp
    · intro y hy
      simpa using hafter y (List.mem_reverse.mp hy)
  · rintro ⟨before, after, rfl, hafter⟩
    refine ⟨after.reverse, before.reverse, by simp, ?_⟩
    intro y hy
    simpa using hafter y (List.mem_reverse.mp hy)

theorem mem_dropLast_of_sublist {x y : α} {xs : List α} (h : [x, y].Sublist xs) :
    x ∈ xs.dropLast := by
  induction xs with
  | nil => cases h
  | cons z xs ih =>
    cases xs with
    | nil => simpa using h.length_le
    | cons w xs =>
      rw [List.dropLast_cons_cons]
      cases h with
      | cons _ h => exact List.mem_cons_of_mem z (ih h)
      | cons_cons _ h => exact List.mem_cons_self

/-- Lists that are put together from pieces none of which is longer on the left are equal only
piece by piece. -/
theorem flatMap_eq_flatMap_iff {xs : List α} {f g : α → List β}
    (h : ∀ x ∈ xs, (f x).length ≤ (g x).length) :
    xs.flatMap f = xs.flatMap g ↔ ∀ x ∈ xs, f x = g x := by
  refine ⟨fun heq ↦ ?_, List.flatMap_congr⟩
  induction xs with
  | nil => simp
  | cons x xs ih =>
    obtain ⟨hx, hxs⟩ := List.forall_mem_cons.mp h
    rw [List.flatMap_cons, List.flatMap_cons] at heq
    have hrest : (xs.flatMap f).length ≤ (xs.flatMap g).length := by
      rw [List.length_flatMap, List.length_flatMap]
      exact List.sum_le_sum hxs
    have hlength := congrArg List.length heq
    rw [List.length_append, List.length_append] at hlength
    obtain ⟨hhead, htail⟩ := List.append_inj heq (by omega)
    exact List.forall_mem_cons.mpr ⟨hhead, ih hxs htail⟩

theorem flatMap_filter (p : α → Bool) (f : α → List β) (xs : List α) :
    (xs.filter p).flatMap f = xs.flatMap fun x ↦ if p x then f x else [] := by
  induction xs with
  | nil => rfl
  | cons x xs ih => cases hx : p x <;> simp [hx, ih]

/-- What is left of a list keeps its places exactly if it is the front of the list. -/
theorem forall_getElem?_filterMap_iff {f : α → Option β} {xs : List α} :
    (∀ i : Nat, (xs.filterMap f)[i]? = xs[i]?.bind f) ↔
      xs.Pairwise fun x y ↦ (f y).isSome = true → (f x).isSome = true := by
  induction xs with
  | nil => simp
  | cons x xs ih =>
    rw [List.pairwise_cons, ← ih]
    cases hx : f x with
    | some b =>
      have hcons : (x :: xs).filterMap f = b :: xs.filterMap f := List.filterMap_cons_some hx
      constructor
      · intro h
        refine ⟨fun _ _ _ ↦ rfl, fun i ↦ ?_⟩
        have hi := h (i + 1)
        rwa [hcons, List.getElem?_cons_succ, List.getElem?_cons_succ] at hi
      · rintro ⟨-, h⟩ i
        rw [hcons]
        cases i with
        | zero => exact hx.symm
        | succ i => exact h i
    | none =>
      have hcons : (x :: xs).filterMap f = xs.filterMap f := List.filterMap_cons_none hx
      have hbind (h : ∀ y ∈ xs, f y = none) (i : Nat) : xs[i]?.bind f = none := by
        cases hi : xs[i]? with
        | none => rfl
        | some y => exact h y (List.mem_of_getElem? hi)
      rw [hcons]
      constructor
      · intro h
        have hzero : (xs.filterMap f)[0]? = none := by
          rw [h, List.getElem?_cons_zero, Option.bind_some, hx]
        have hnil : xs.filterMap f = [] := by
          rwa [List.getElem?_eq_none_iff, Nat.le_zero, List.length_eq_zero_iff] at hzero
        have hnone := List.filterMap_eq_nil_iff.mp hnil
        refine ⟨fun y hy hsome ↦ by simp [hnone y hy] at hsome, fun i ↦ ?_⟩
        rw [hnil, hbind hnone, List.getElem?_nil]
      · rintro ⟨h, -⟩ i
        have hnone : ∀ y ∈ xs, f y = none := fun y hy ↦
          Option.not_isSome_iff_eq_none.mp fun hsome ↦ by simpa using h y hy hsome
        rw [List.filterMap_eq_nil_iff.mpr hnone, List.getElem?_nil]
        cases i with
        | zero => exact hx.symm
        | succ i => exact (hbind hnone i).symm

/-- Two texts of members with a property, and behind each of them one that has it not, are told
apart by the property. -/
theorem append_inj_of_forall {p : α → Bool} {xs ys : List α} {x y : α} {r s : List α}
    (hxs : ∀ z ∈ xs, p z = true) (hys : ∀ z ∈ ys, p z = true) (hx : p x = false)
    (hy : p y = false) (h : xs ++ x :: r = ys ++ y :: s) : xs = ys ∧ x :: r = y :: s := by
  have htake (zs : List α) (hzs : ∀ z ∈ zs, p z = true) (z : α) (hz : p z = false) (t : List α) :
      (zs ++ z :: t).takeWhile p = zs := by
    rw [List.takeWhile_append_of_pos hzs]
    simp [hz]
  have heq : xs = ys := by rw [← htake xs hxs x hx r, h, htake ys hys y hy s]
  subst heq
  exact ⟨rfl, List.append_cancel_left h⟩

/-! ## Keys -/

section Keys

variable {γ κ : Type}

/-- With distinct keys a member is found by its key. -/
theorem find?_key_eq_some_iff [DecidableEq κ] {key : α → κ} {xs : List α}
    (h : (xs.map key).Nodup) {k : κ} {x : α} :
    xs.find? (key · = k) = some x ↔ x ∈ xs ∧ key x = k := by
  constructor
  · intro hx
    exact ⟨List.mem_of_find?_eq_some hx, by simpa using List.find?_some hx⟩
  · rintro ⟨hx, rfl⟩
    cases hfind : xs.find? (key · = key x) with
    | none => simpa using List.find?_eq_none.mp hfind x hx
    | some y =>
      have hy : key y = key x := by simpa using List.find?_some hfind
      rw [List.inj_on_of_nodup_map h (List.mem_of_find?_eq_some hfind) hx hy]

/-- What is made of the members of two lists, first along the one and then along what only the
other one has. -/
theorem flatMap_union_perm [BEq κ] [LawfulBEq κ] {xs ys : List κ} (hx : xs.Nodup)
    (hy : ys.Nodup) {f g : κ → List γ} (hf : ∀ k ∉ xs, f k = []) (hg : ∀ k ∉ ys, g k = []) :
    ((xs ++ ys.filter (· ∉ xs)).flatMap fun k ↦ f k ++ g k).Perm
      (xs.flatMap f ++ ys.flatMap g) := by
  have hunion {us vs : List κ} (hu : us.Nodup) (hv : vs.Nodup) :
      (us ++ vs.filter (· ∉ us)).Nodup := by
    refine List.nodup_append.mpr ⟨hu, hv.filter _, ?_⟩
    rintro k hk _ hk' rfl
    simp [hk] at hk'
  have hsame : (xs ++ ys.filter (· ∉ xs)).Perm (ys ++ xs.filter (· ∉ ys)) := by
    refine (List.perm_ext_iff_of_nodup (hunion hx hy) (hunion hy hx)).mpr fun k ↦ ?_
    simp only [List.mem_append, List.mem_filter, decide_eq_true_eq]
    tauto
  have honly {us vs : List κ} {h : κ → List γ} (hh : ∀ k ∉ us, h k = []) :
      (us ++ vs.filter (· ∉ us)).flatMap h = us.flatMap h := by
    have hrest : (vs.filter (· ∉ us)).flatMap h = [] :=
      List.flatMap_eq_nil_iff.mpr fun k hk ↦ hh k (by simpa using (List.mem_filter.mp hk).2)
    rw [List.flatMap_append, hrest, List.append_nil]
  refine (List.flatMap_append_perm _ f g).symm.trans ?_
  rw [honly hf, ← @honly ys xs g hg]
  exact (hsame.flatMap_right g).append_left _

end Keys

end FrontendSync
