import FrontendSync.Enum.OfDecl
import FrontendSync.Proofs.Lists
import FrontendSync.Proofs.Module.ReadBack
import FrontendSync.Proofs.Php.Declaration
import FrontendSync.Proofs.Text.Upper

/-!
# Records of declared enums

What a record is known to be when it stands for an enum of a source: the names in it are names of
the source, its numbers can be written as literals, and the keys of a group are distinct.
-/

namespace FrontendSync

/-! ## Well-formed records -/

/-- A literal that comes from a value of an expression. -/
def Scalar.WellFormed : Scalar → Prop
  | .int n => Decimal.fits n = true
  | .float x => x.IsCanonical
  | _ => True

namespace EnumRecord

open Php

open Module.Export (HasPositions)

def Entry.WellFormed : Entry → Prop
  | .ofCase name => IsNameText name
  | .ofScalar s => s.WellFormed

structure Group.WellFormed (g : Group) : Prop where
  name : HasNameChars g.name.toList
  keys : (g.entries.map Prod.fst).Nodup
  positions : HasPositions g
  shape : g.entries = [] → g.shape = .array
  entries : ∀ e ∈ g.entries, e.2.WellFormed

/-- What holds of the record of an enum of a source. -/
structure WellFormed (r : EnumRecord) : Prop where
  name : IsNameText r.name
  cases : ∀ c ∈ r.cases, Module.isSimple c.value = true
  groups : ∀ g ∈ r.groups, g.WellFormed
  groupNames : (r.groups.map Group.name).Nodup

/-! ### Cases -/

section Cases

variable {enumName : String} {backing : Backing} {needsDocs : Bool} {c : CaseDecl} {d : Case}

theorem name_of_caseOf (h : caseOf enumName backing needsDocs c = .ok d) : d.name = c.name := by
  unfold caseOf at h
  split at h
  · simp at h
  · split at h
    · simp at h
    · obtain rfl := Except.ok.inj h
      rfl

theorem map_name_of_forall₂ {cs : List CaseDecl} {ds : List Case}
    (h : List.Forall₂ (fun c d ↦ caseOf enumName backing needsDocs c = .ok d) cs ds) :
    ds.map Case.name = cs.map CaseDecl.name := by
  induction h with
  | nil => rfl
  | cons hcd _ ih => rw [List.map_cons, List.map_cons, ih, name_of_caseOf hcd]

/-- The value of a case is a text or an integer, and so its literal is exact. -/
theorem isSimple_of_caseOf (hc : c.WellFormed) (h : caseOf enumName backing needsDocs c = .ok d) :
    Module.isSimple d.value = true := by
  unfold caseOf at h
  split at h
  · simp at h
  · rename_i v hv
    split at h
    · simp at h
    · obtain rfl := Except.ok.inj h
      unfold caseValue at hv
      split at hv
      · obtain rfl := Except.ok.inj hv
        rfl
      · rename_i n hvalue
        obtain rfl := Except.ok.inj hv
        cases hc.value _ hvalue with
        | int hn => exact hn.fits
      · simp at hv
      · simp at hv
      · simp at hv

end Cases

/-- The cases of a record are those of the declaration, in order. -/
theorem forall₂_of_casesOf {e : EnumDecl} {needsDocs : Bool} {cs : List Case}
    (h : casesOf e needsDocs = .ok cs) :
    ∃ backing, e.backing = some backing ∧
      List.Forall₂ (fun c d ↦ caseOf e.name backing needsDocs c = .ok d) e.cases cs := by
  unfold casesOf at h
  split at h
  · simp at h
  · rename_i backing hbacking
    exact ⟨backing, hbacking, mapM_eq_ok_iff.mp h⟩

/-! ### Groups -/

theorem hasNameChars_groupName {method : String} (h : HasNameChars method.toList) :
    HasNameChars (groupName method).toList := by
  unfold groupName
  split
  · simp [HasNameChars]
  · rename_i c cs hmethod
    rw [hmethod] at h
    intro d hd
    rw [String.toList_ofList] at hd
    rcases List.mem_append.mp hd with hd | hd
    · exact Text.isNameChar_of_mem_upper (h c List.mem_cons_self) hd
    · exact h d (List.mem_cons_of_mem c hd)

theorem Entry.wellFormed_of_entryOf {e : EnumDecl} {v : Value} (hv : v.WellFormed) {entry : Entry}
    (h : entryOf e v = .ok entry) : entry.WellFormed := by
  cases hv with
  | null | bool | string =>
    obtain rfl := Except.ok.inj h
    trivial
  | int hn =>
    obtain rfl := Except.ok.inj h
    exact hn.fits
  | float hx =>
    obtain rfl := Except.ok.inj h
    exact hx
  | array => simp [entryOf] at h
  | enumCase hname =>
    unfold entryOf at h
    simp only at h
    split at h
    · simp at h
    · split at h
      · simp at h
      · obtain rfl := Except.ok.inj h
        exact hname

section Groups

variable {e : EnumDecl} {m : MethodDecl} {entries : List (Key × Value)}
  {es : List (String × Entry)}

/-- Each entry of a group comes from an entry of the array with the text of its key. -/
theorem forall₂_of_entriesOf (h : entriesOf e m entries = .ok es) :
    List.Forall₂ (fun p q ↦ q.1 = p.1.text ∧ entryOf e p.2 = .ok q.2) entries es := by
  refine (mapM_eq_ok_iff.mp h).imp fun p q hpq ↦ ?_
  obtain ⟨k, v⟩ := p
  simp only at hpq
  split at hpq
  · rename_i entry hentry
    obtain rfl := Except.ok.inj hpq
    exact ⟨rfl, hentry⟩
  · simp at hpq

theorem map_fst_of_entriesOf (h : entriesOf e m entries = .ok es) :
    es.map Prod.fst = (Ordered.keys entries).map Key.text := by
  have hforall := forall₂_of_entriesOf h
  clear h
  induction hforall with
  | nil => rfl
  | cons hpq _ ih =>
    rw [List.map_cons, ih, hpq.1]
    rfl

/-- A group of entries that an array of an expression holds is well-formed. -/
theorem Group.wellFormed_of_entriesOf {name : String} (hname : HasNameChars name.toList)
    (hentries : Value.WellFormed (.array entries)) (h : entriesOf e m entries = .ok es) :
    Group.WellFormed ⟨name, if Value.isList entries then .array else .record, es⟩ := by
  have hkeys := map_fst_of_entriesOf h
  have hforall := forall₂_of_entriesOf h
  cases hentries with
  | array hnodup hnormal hvalues =>
    refine ⟨hname, ?_, ?_, ?_, ?_⟩
    · rw [hkeys]
      refine hnodup.map_on ?_
      intro j hj k hk hjk
      obtain ⟨p, hp, rfl⟩ := List.mem_map.mp hj
      obtain ⟨q, hq, rfl⟩ := List.mem_map.mp hk
      exact Key.text_injective (hnormal p hp) (hnormal q hq) hjk
    · intro harray
      have hlist : Value.isList entries = true := by
        by_contra hlist
        simp [hlist] at harray
      have hlength : es.length = (Ordered.keys entries).length := by
        rw [← List.length_map Prod.fst, hkeys, List.length_map]
      rw [hkeys, hlength, Value.isList_iff.mp hlist, List.map_map, List.length_map,
        List.length_range]
      rfl
    · rintro rfl
      cases hforall with
      | nil => rfl
    · intro q hq
      obtain ⟨p, hp, -, hpq⟩ := exists_of_mem_of_forall₂ hforall hq
      exact Entry.wellFormed_of_entryOf (hvalues p hp) hpq

end Groups

/-- A method that returns an array has a well-formed one. -/
theorem wellFormed_of_returnedEntries {ctx : Context} (hctx : ctx.WellFormed)
    {body : List Token} (h : Token.AllWellFormed body) {entries : List (Key × Value)}
    (hentries : returnedEntries ctx body = .ok entries) : Value.WellFormed (.array entries) := by
  have hvalue {v : Value} (hv : returnedValue ctx body = .ok v) : v.WellFormed := by
    unfold returnedValue at hv
    split at hv
    · simp at hv
    · rename_i t ts
      have hread := Expression.wellFormed_read hctx h.tail
      split at hv
      · cases hr : Expression.read ctx ts with
        | error e rest =>
          rw [hr] at hv
          simp at hv
        | value w rest hlt =>
          rw [hr] at hv hread
          cases rest with
          | nil => simp at hv
          | cons semicolon more =>
            cases more with
            | nil =>
              simp only at hv
              split at hv
              · obtain rfl := Except.ok.inj hv
                exact hread.1
              · simp at hv
            | cons _ _ => simp at hv
      · simp at hv
  unfold returnedEntries at hentries
  split at hentries
  · rename_i hv
    obtain rfl := Except.ok.inj hentries
    exact hvalue hv
  · simp at hentries
  · simp at hentries

section Records

variable {lookup : String → String → Option Value} {e : EnumDecl}

/-- A group holds the entries that its method returns. -/
theorem exists_of_groupOf {method : String} {g : Group} (h : groupOf lookup e method = .ok g) :
    ∃ m entries, e.method? method = some m ∧
      returnedEntries ⟨e.scope, some e.qualified, lookup⟩ (m.body.getD []) = .ok entries ∧
      g.name = groupName m.name ∧
      g.shape = (if Value.isList entries then .array else .record) ∧
      entriesOf e m entries = .ok g.entries := by
  unfold groupOf at h
  split at h
  · simp at h
  · rename_i m hm
    split at h
    · simp at h
    · split at h
      · simp at h
      · split at h
        · simp at h
        · rename_i entries hentries
          cases hes : entriesOf e m entries with
          | error fault =>
            rw [hes] at h
            simp [Except.map] at h
          | ok es =>
            rw [hes] at h
            obtain rfl := Except.ok.inj h
            exact ⟨m, entries, hm, hentries, rfl, rfl, hes⟩

/-- The groups of methods come in the order of the methods, under names of their own. -/
theorem forall₂_of_groupsOf {before : List (String × Group)}
    (hnames : (before.map (·.2.name)).Nodup) {methods : List String} {gs : List Group}
    (h : groupsOf lookup e before methods = .ok gs) :
    ∃ new, gs = before.map Prod.snd ++ new ∧
      List.Forall₂ (fun method g ↦ groupOf lookup e method = .ok g ∧ g.name ≠ e.name) methods new ∧
      (gs.map Group.name).Nodup := by
  induction methods generalizing before with
  | nil =>
    obtain rfl := Except.ok.inj h
    refine ⟨[], (List.append_nil _).symm, .nil, ?_⟩
    rwa [List.map_map]
  | cons method methods ih =>
    rw [groupsOf] at h
    split at h
    · simp at h
    · rename_i g hg
      split at h
      · simp at h
      · rename_i henum
        split at h
        · simp at h
        · rename_i hnone
          have hfresh : ((before ++ [(method, g)]).map (·.2.name)).Nodup := by
            rw [List.map_append, List.nodup_append]
            refine ⟨hnames, by simp, ?_⟩
            rintro n hn _ hname rfl
            obtain ⟨p, hp, rfl⟩ := List.mem_map.mp hn
            have hne := List.find?_eq_none.mp hnone p hp
            simp only [List.map_singleton, List.mem_singleton] at hname
            simp [hname] at hne
          obtain ⟨new, hgs, hforall, hnodup⟩ := ih hfresh h
          have hapart : g.name ≠ e.name := by simpa using henum
          refine ⟨g :: new, ?_, .cons ⟨hg, hapart⟩ hforall, hnodup⟩
          rw [hgs, List.map_append, List.append_assoc]
          rfl

/-- A record is made of its cases and of its groups. -/
theorem exists_of_ofDecl {target : Target} {r : EnumRecord} (h : ofDecl lookup target e = .ok r) :
    ∃ cs gs, casesOf e (Wishes.of e).needsDocs = .ok cs ∧
      groupsOf lookup e [] (Wishes.of e).methods = .ok gs ∧
      r = ⟨e.name, e.qualified, e.space, e.doc, cs, gs, target.path e.name⟩ := by
  obtain ⟨cs, hcases, h⟩ := bind_eq_ok_iff.mp h
  obtain ⟨gs, hgroups, h⟩ := bind_eq_ok_iff.mp h
  exact ⟨cs, gs, hcases, hgroups, (Except.ok.inj h).symm⟩

variable (hlookup : ∀ className caseName v, lookup className caseName = some v → v.WellFormed)
  (he : e.WellFormed)
include hlookup he

theorem Group.wellFormed_of_groupOf {method : String} {g : Group}
    (h : groupOf lookup e method = .ok g) : g.WellFormed := by
  obtain ⟨m, entries, hm, hentries, hname, hshape, hes⟩ := exists_of_groupOf h
  have hmethod := he.methods m (List.mem_of_find?_eq_some hm)
  have hwell := Group.wellFormed_of_entriesOf (hasNameChars_groupName hmethod.name.chars)
    (wellFormed_of_returnedEntries (fun _ _ _ ↦ hlookup _ _ _) hmethod.bodyTokens hentries) hes
  rwa [← hname, ← hshape] at hwell

theorem wellFormed_of_groupsOf {methods : List String} {gs : List Group}
    (h : groupsOf lookup e [] methods = .ok gs) :
    (∀ g ∈ gs, g.WellFormed) ∧ (gs.map Group.name).Nodup := by
  obtain ⟨new, rfl, hforall, hnames⟩ := forall₂_of_groupsOf (by simp) h
  refine ⟨?_, hnames⟩
  intro g hg
  obtain ⟨method, -, hmethod, -⟩ := exists_of_mem_of_forall₂ hforall hg
  exact Group.wellFormed_of_groupOf hlookup he hmethod

/-- The record of a well-formed enum is well-formed, and its cases have the names of the declared
ones. -/
theorem wellFormed_of_ofDecl {target : Target} {r : EnumRecord}
    (h : ofDecl lookup target e = .ok r) :
    r.WellFormed ∧ r.cases.map Case.name = e.cases.map CaseDecl.name := by
  obtain ⟨cs, gs, hcases, hgroups, rfl⟩ := exists_of_ofDecl h
  obtain ⟨backing, -, hforall⟩ := forall₂_of_casesOf hcases
  obtain ⟨hwell, hnames⟩ := wellFormed_of_groupsOf hlookup he hgroups
  refine ⟨⟨he.name, ?_, hwell, hnames⟩, ?_⟩
  · intro d hd
    obtain ⟨c, hc, hcd⟩ := exists_of_mem_of_forall₂ hforall hd
    exact isSimple_of_caseOf (he.cases c hc) hcd
  · exact map_name_of_forall₂ hforall

end Records

end EnumRecord

end FrontendSync
