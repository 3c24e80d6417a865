import FrontendSync.Proofs.Php.EnumNames
import Mathlib.Data.List.DropRight

/-!
# What waits for an enum

The reader of a file comes from place to place.  Documentation, attributes and modifiers wait for
the enum behind them, and everything else that is not a heading of the file drops them.  So an enum
has its own attributes and its own documentation, and those that stand before the headings in front
of them.
-/

namespace FrontendSync.Php

theorem EnumDecl.attached_of_read? {scope : Scope} {attributes : List Attribute}
    {doc : Option String} {ts : List Token} {r : EnumDecl × List Token}
    (h : read? scope attributes doc ts = some r) : r.1.attributes = attributes ∧ r.1.doc = doc := by
  obtain ⟨t, rest, name, group, -, -, -, members, -, rfl⟩ := exists_of_read? h
  exact ⟨rfl, rfl⟩

/-- Documentation, attributes and modifiers are part of the declaration behind them. -/
def Token.isLeading (t : Token) : Bool :=
  match t.kind with
  | .docComment _ | .punct .attributeOpen => true
  | .name word => ["final", "readonly", "abstract"].contains word.toLower
  | _ => false

namespace FileState

/-- The attributes and the documentation for the declaration to come. -/
def pending (s : FileState) : List Attribute × Option String := (s.attributes, s.doc)

@[simp] theorem pending_dropPending (s : FileState) : s.dropPending.pending = ([], none) := rfl

@[simp] theorem pending_enterNamespace (s : FileState) (ts : List Token) :
    (s.enterNamespace ts).pending = s.pending := by
  rw [enterNamespace]
  split
  split <;> rfl

end FileState

theorem Token.isLeading_of_closes {t : Token} (h : t.closes = true) : t.isLeading = false := by
  unfold closes at h
  unfold isLeading
  split at h
  · rename_i p hkind
    rw [hkind]
    cases p <;> first | rfl | simp [Punct.closes] at h
  · simp at h

theorem Token.isLeading_of_isPunct {p : Punct} (hp : p ≠ .attributeOpen) {t : Token}
    (h : t.isPunct p = true) : t.isLeading = false := by
  rw [isPunct, beq_iff_eq] at h
  unfold isLeading
  rw [h]
  cases p <;> first | rfl | exact absurd rfl hp

/-- The tokens `ts` are followed by `rest` from behind a token with `P` on. -/
def EndsBefore (P : Token → Prop) (rest ts : List Token) : Prop :=
  ∃ init t, ts = init ++ t :: rest ∧ P t

namespace EndsBefore

variable {P : Token → Prop} {rest ts us : List Token}

theorem imp {Q : Token → Prop} (h : EndsBefore P rest ts) (hPQ : ∀ t, P t → Q t) :
    EndsBefore Q rest ts := by
  obtain ⟨init, t, hts, ht⟩ := h
  exact ⟨init, t, hts, hPQ t ht⟩

theorem of_suffix (h : EndsBefore P rest us) (hus : us <:+ ts) : EndsBefore P rest ts := by
  obtain ⟨init, t, rfl, ht⟩ := h
  obtain ⟨before, rfl⟩ := hus
  exact ⟨before ++ init, t, (List.append_assoc _ _ _).symm, ht⟩

end EndsBefore

theorem Brackets.group_endsBefore (depth : Nat) {ts : List Token} (h : (group depth ts).2 ≠ []) :
    EndsBefore (fun t ↦ t.closes = true) (group depth ts).2 ts := by
  fun_induction group depth ts with
  | case1 => simp at h
  | case3 t ts _ hcloses => exact ⟨[], t, rfl, hcloses⟩
  | case2 _ t ts _ _ _ heq ih | case4 t ts _ _ _ _ _ heq ih | case5 _ t ts _ _ _ _ heq ih =>
    rw [heq] at ih
    exact (ih h).of_suffix (List.suffix_cons t ts)

theorem Brackets.splitAt_endsBefore (p : Token → Bool) {ts : List Token}
    (h : (splitAt p ts).2 ≠ []) : EndsBefore (fun t ↦ p t = true) (splitAt p ts).2 ts := by
  induction ts with
  | nil => simp [splitAt] at h
  | cons t ts ih =>
    cases hp : p t with
    | true => exact ⟨[], t, by simp [splitAt, hp], hp⟩
    | false =>
      have hrest : (splitAt p (t :: ts)).2 = (splitAt p ts).2 := by simp [splitAt, hp]
      rw [hrest] at h ⊢
      exact (ih h).of_suffix (List.suffix_cons t ts)

theorem EnumDecl.read?_endsBefore {scope : Scope} {attributes : List Attribute}
    {doc : Option String} {ts : List Token} {r : EnumDecl × List Token}
    (h : read? scope attributes doc ts = some r) (hrest : r.2 ≠ []) :
    EndsBefore (fun t ↦ t.closes = true) r.2 ts := by
  obtain ⟨t, rest, name, group, rfl, -, hgroup, members, -, rfl⟩ := exists_of_read? h
  obtain ⟨brace, inside, hbrace, rfl⟩ := exists_of_braces? hgroup
  exact (Brackets.group_endsBefore 0 hrest).of_suffix
    ((((List.suffix_cons brace inside).trans hbrace).trans (readType_suffix rest)).trans
      (List.suffix_cons t rest))

theorem FileState.afterNamespace_endsBefore {ts : List Token} (h : afterNamespace ts ≠ []) :
    EndsBefore (· ∈ (spaceName ts).2.head?) (afterNamespace ts) ts := by
  have hname : (spaceName ts).2 <:+ ts := spaceName_suffix ts
  unfold afterNamespace at h ⊢
  cases hbehind : (spaceName ts).2 with
  | nil => simp [hbehind] at h
  | cons t rest =>
    rw [hbehind] at hname
    exact EndsBefore.of_suffix ⟨[], t, rfl, rfl⟩ hname

namespace SourceFile

/-- A place in a file to which the reader comes, and the state in which it does. -/
structure Place where
  state : FileState
  token : Token
  behind : List Token

namespace Place

def next (p : Place) : Step := step p.state p.token p.behind

/-- The enum that is declared there. -/
def declared (p : Place) : Option EnumDecl := p.next.declared

/-- The tokens of the step that the reader takes.  That of a namespace takes the token behind its
name, and that of an import the tokens up to its semicolon. -/
def span (p : Place) : List Token :=
  p.token :: p.behind.take (p.behind.length - p.next.rest.length)

def isLeading (p : Place) : Bool := p.token.isLeading

/-- A namespace, or an import where these may stand. -/
def isHeading (p : Place) : Bool :=
  p.token.isKeyword "namespace" ||
    p.token.isKeyword "use" && p.state.depth == p.state.importDepth

def isWaiting (p : Place) : Bool := p.isLeading || p.isHeading

/-- The attributes of the group that opens there. -/
def attributes (p : Place) : List Attribute :=
  if p.token.isPunct .attributeOpen then
    (Attribute.readGroup (attributeContext p.state.scope) p.behind).1
  else []

/-- The text of the documentation comment there, which may have none. -/
def doc? (p : Place) : Option (Option String) :=
  match p.token.kind with
  | .docComment raw => some (DocComment.text? raw)
  | _ => none

/-- The token behind the name of a namespace, which is part of the step whatever it is. -/
def taken? (p : Place) : Option Token :=
  if p.token.isKeyword "namespace" then (FileState.spaceName p.behind).2.head? else none

theorem span_of_rest_eq {p : Place} (h : p.next.rest = p.behind) : p.span = [p.token] := by
  rw [span, h, Nat.sub_self, List.take_zero]

theorem span_of_endsBefore {P : Token → Prop} {p : Place}
    (h : EndsBefore P p.next.rest p.behind) : ∃ t, p.span.getLast? = some t ∧ P t := by
  obtain ⟨init, t, hbehind, ht⟩ := h
  refine ⟨t, ?_, ht⟩
  have htake : p.behind.take (p.behind.length - p.next.rest.length) = init ++ [t] := by
    have hlength : p.behind.length - p.next.rest.length = (init ++ [t]).length := by
      rw [hbehind]
      simp
      omega
    rw [hlength, hbehind, List.append_cons init t p.next.rest]
    exact List.take_left
  rw [span, htake, ← List.cons_append, List.getLast?_append]
  rfl

/-- Where the reader goes on behind a place that is not leading: behind the token that a namespace
takes, behind the token at the place, or behind one that ends an import or a body. -/
theorem rest_of_not_isLeading {p : Place} (hp : p.isLeading = false) (hrest : p.next.rest ≠ []) :
    EndsBefore (· ∈ p.taken?) p.next.rest p.behind ∨
      p.taken? = none ∧ (p.next.rest = p.behind ∨
        EndsBefore (fun t ↦ t.isLeading = false) p.next.rest p.behind) := by
  obtain ⟨s, t, rest⟩ := p
  revert hp hrest
  simp only [isLeading, next, taken?, Token.isKeyword, Token.keyword?, Token.name?]
  fun_cases step s t rest with
  | case1 raw hkind | case2 hkind => simp [Token.isLeading, hkind]
  | case5 word hkind hword =>
    intro _ hrest
    simpa [hkind, hword] using Or.inl (FileState.afterNamespace_endsBefore hrest)
  | case6 word hkind hword hdepth =>
    intro _ hrest
    have hend := (Brackets.splitAt_endsBefore _ hrest).imp fun t ht ↦
      Token.isLeading_of_isPunct (by decide) ht
    simp [hkind, hword, hend]
  | case8 word hkind hword r hr =>
    intro _ hrest
    have hend := (EnumDecl.read?_endsBefore hr hrest).imp fun t ht ↦ Token.isLeading_of_closes ht
    simp [hkind, hword, hend]
  | _ => simp_all

theorem span_ne_nil (p : Place) : p.span ≠ [] := List.cons_ne_nil _ _

theorem forall_getLast_span_iff {p : Place} (hp : p.isLeading = false) (hrest : p.next.rest ≠ []) :
    (∀ t ∈ p.span.getLast?, t.isLeading = false) ↔ ∀ t ∈ p.taken?, t.isLeading = false := by
  rcases rest_of_not_isLeading hp hrest with hend | ⟨hnone, hend | hend⟩
  · obtain ⟨t, hlast, htaken⟩ := span_of_endsBefore hend
    rw [hlast, Option.mem_def.mp htaken]
  · have htoken : p.token.isLeading = false := hp
    simp [span_of_rest_eq hend, hnone, htoken]
  · obtain ⟨t, hlast, ht⟩ := span_of_endsBefore hend
    simp [hlast, hnone, ht]

end Place

/-- The places to which the reader comes, in order. -/
def places (s : FileState) : List Token → List Place
  | [] => []
  | t :: ts =>
    have := (step_suffix s t ts).length_le
    let next := step s t ts
    ⟨s, t, ts⟩ :: places next.state next.rest
termination_by ts => ts.length

theorem places_cons (s : FileState) (t : Token) (ts : List Token) : places s (t :: ts)
    = ⟨s, t, ts⟩ :: places (step s t ts).state (step s t ts).rest := by rw [places]

theorem of_places_eq_cons {s : FileState} {ts : List Token} {p : Place} {ps : List Place}
    (h : places s ts = p :: ps) : p.state = s ∧ places p.next.state p.next.rest = ps := by
  cases ts with
  | nil => simp [places] at h
  | cons t ts =>
    rw [places_cons] at h
    obtain ⟨rfl, hps⟩ := List.cons.inj h
    exact ⟨rfl, hps⟩

/-- The reader goes on from the place it is at. -/
theorem places_next {s : FileState} {ts : List Token} {before after : List Place} {place : Place}
    (h : places s ts = before ++ place :: after) :
    places place.next.state place.next.rest = after := by
  induction before generalizing s ts with
  | nil => exact (of_places_eq_cons h).2
  | cons p before ih => exact ih (of_places_eq_cons h).2

theorem enums_read_places (s : FileState) (ts : List Token) :
    (read s ts).enums = (places s ts).filterMap Place.declared := by
  fun_induction places s ts with
  | case1 => rw [read.eq_def]; rfl
  | case2 s t ts _ next ih =>
    rw [enums_read_cons, List.filterMap_cons, ih, Place.declared, Place.next]
    cases (step s t ts).declared <;> rfl

/-- The places share the tokens of the file among them. -/
theorem flatMap_span_places (s : FileState) (ts : List Token) :
    (places s ts).flatMap Place.span = ts := by
  fun_induction places s ts with
  | case1 => rfl
  | case2 s t ts _ next ih =>
    rw [List.flatMap_cons, ih]
    exact congrArg (t :: ·) (take_append_rest s t ts)

/-! ## Runs of places -/

def attributesOf (ps : List Place) : List Attribute := ps.flatMap Place.attributes

/-- The text of the last documentation comment. -/
def docOf (ps : List Place) : Option String := (ps.filterMap Place.doc?).getLast?.join

def HasDoc (ps : List Place) : Prop := ∃ p ∈ ps, p.doc?.isSome = true

/-- The longest run of leading places at the end. -/
def ownRun (ps : List Place) : List Place := ps.rtakeWhile Place.isLeading

/-- The longest run at the end of places that are leading or headings. -/
def waitingRun (ps : List Place) : List Place := ps.rtakeWhile Place.isWaiting

/-- What waits before the run of leading places, with headings behind it. -/
def staleRun (ps : List Place) : List Place := waitingRun (ps.rdropWhile Place.isLeading)

theorem waitingRun_eq (ps : List Place) : waitingRun ps = staleRun ps ++ ownRun ps := by
  induction ps using List.reverseRecOn with
  | nil => rfl
  | append_singleton ps p ih =>
    by_cases hp : p.isLeading = true
    · have hwaiting : p.isWaiting = true := by simp [Place.isWaiting, hp]
      rw [staleRun, List.rdropWhile_concat_pos _ _ _ hp, ownRun,
        List.rtakeWhile_concat_pos _ _ _ hp, waitingRun,
        List.rtakeWhile_concat_pos _ _ _ hwaiting, ← List.append_assoc]
      exact congrArg (· ++ [p]) ih
    · rw [staleRun, List.rdropWhile_concat_neg _ _ _ hp, ownRun,
        List.rtakeWhile_concat_neg _ _ _ hp, List.append_nil]

theorem attributesOf_append (ps qs : List Place) :
    attributesOf (ps ++ qs) = attributesOf ps ++ attributesOf qs := List.flatMap_append

theorem docOf_append_singleton (ps : List Place) (p : Place) :
    docOf (ps ++ [p]) = p.doc?.getD (docOf ps) := by
  rw [docOf, List.filterMap_append]
  cases hdoc : p.doc? <;> simp [hdoc, docOf]

theorem docOf_append_of_hasDoc (ps : List Place) {qs : List Place} (h : HasDoc qs) :
    docOf (ps ++ qs) = docOf qs := by
  obtain ⟨p, hp, hdoc⟩ := h
  have hne : qs.filterMap Place.doc? ≠ [] := by
    obtain ⟨text, htext⟩ := Option.isSome_iff_exists.mp hdoc
    exact List.ne_nil_of_mem (List.mem_filterMap.mpr ⟨p, hp, htext⟩)
  rw [docOf, docOf, List.filterMap_append, List.getLast?_append_of_ne_nil _ hne]

theorem docOf_append_of_not_hasDoc (ps : List Place) {qs : List Place} (h : ¬ HasDoc qs) :
    docOf (ps ++ qs) = docOf ps ∧ docOf qs = none := by
  have hnil : qs.filterMap Place.doc? = [] := by
    refine List.filterMap_eq_nil_iff.mpr fun p hp ↦ ?_
    by_contra hdoc
    exact h ⟨p, hp, Option.isSome_iff_ne_none.mpr hdoc⟩
  rw [docOf, docOf, docOf, List.filterMap_append, hnil, List.append_nil]
  exact ⟨rfl, rfl⟩

/-! ## What is pending -/

/-- What is pending behind a place. -/
def note (pending : List Attribute × Option String) (p : Place) :
    List Attribute × Option String :=
  if p.isWaiting then (pending.1 ++ p.attributes, p.doc?.getD pending.2) else ([], none)

theorem pending_next (p : Place) : p.next.state.pending = note p.state.pending p := by
  obtain ⟨s, t, rest⟩ := p
  simp only [Place.next, note, Place.isWaiting, Place.isLeading, Token.isLeading,
    Place.isHeading, Place.attributes, Place.doc?, Token.isKeyword, Token.keyword?, Token.name?,
    Token.isPunct]
  fun_cases step s t rest with
  | case1 raw hkind => simp [hkind, FileState.pending]
  | case2 hkind group => simp [hkind, FileState.pending, group]
  | case6 word hkind hword hdepth =>
    simp [hkind, hword, hdepth, FileState.pending]
  | case7 word hkind hword hdepth | case8 word hkind hword r hr | case9 word hkind hword hr
  | case10 word hkind hword | case11 word hkind hword | case12 word hkind hword =>
    simp [*]
  | _ => simp_all

/-- A state holds what is pending behind all the places before. -/
theorem pending_of_places {s : FileState} {ts : List Token} {before after : List Place}
    {place : Place} (h : places s ts = before ++ place :: after) :
    place.state.pending = before.foldl note s.pending := by
  induction before generalizing s ts with
  | nil => rw [(of_places_eq_cons h).1, List.foldl_nil]
  | cons p before ih =>
    obtain ⟨hstate, hafter⟩ := of_places_eq_cons h
    rw [ih hafter, pending_next, hstate, List.foldl_cons]

/-- Only the last run of leading places and headings is pending. -/
theorem foldl_note (ps : List Place) :
    ps.foldl note ([], none) = (attributesOf (waitingRun ps), docOf (waitingRun ps)) := by
  induction ps using List.reverseRecOn with
  | nil => rfl
  | append_singleton ps p ih =>
    rw [List.foldl_append, ih, List.foldl_cons, List.foldl_nil, note, waitingRun, waitingRun,
      List.rtakeWhile_concat]
    split
    · rw [attributesOf_append, docOf_append_singleton]
      simp [attributesOf]
    · rfl

/-! ## Enums -/

/-- An enum has exactly the attributes of the groups among some places, and the documentation of
the last comment among them. -/
structure HasAttached (ps : List Place) (e : EnumDecl) : Prop where
  attributes : e.attributes = attributesOf ps
  doc : e.doc = docOf ps

/-- An enum behind some places has what its own run of leading places attaches to it, and no token
that is leading stands in front of that run. -/
structure HasOwn (before : List Place) (e : EnumDecl) : Prop extends
    HasAttached (ownRun before) e where
  front : ∀ t ∈ ((before.rdropWhile Place.isLeading).flatMap Place.span).getLast?,
    t.isLeading = false

/-- Nothing that the headings in front of the own run leave waiting is attached, and no namespace
takes the first token of the run. -/
structure IsClear (before : List Place) : Prop where
  attributes : attributesOf (staleRun before) = []
  doc : HasDoc (ownRun before) ∨ docOf (staleRun before) = none
  taken : ∀ p ∈ (before.rdropWhile Place.isLeading).getLast?, ∀ t ∈ p.taken?,
    t.isLeading = false

theorem pending_of_declared {p : Place} {e : EnumDecl} (h : p.declared = some e) :
    (e.attributes, e.doc) = p.state.pending := by
  rw [Place.declared, Place.next, declared_step] at h
  split at h
  · obtain ⟨r, hr, rfl⟩ := Option.map_eq_some_iff.mp h
    obtain ⟨hattributes, hdoc⟩ := EnumDecl.attached_of_read? hr
    exact Prod.ext hattributes hdoc
  · simp at h

section Declared

variable {ts : List Token} {before after : List Place} {place : Place}
  (hplaces : places FileState.start ts = before ++ place :: after)
include hplaces

theorem hasAttached_waitingRun {e : EnumDecl} (he : place.declared = some e) :
    HasAttached (waitingRun before) e := by
  have hpending := pending_of_declared he
  rw [pending_of_places hplaces] at hpending
  obtain ⟨hattributes, hdoc⟩ := Prod.mk.inj (hpending.trans (foldl_note before))
  exact ⟨hattributes, hdoc⟩

/-- What is attached is all from the own run exactly if nothing before it is left waiting. -/
theorem hasAttached_ownRun_iff {e : EnumDecl} (he : place.declared = some e) :
    HasAttached (ownRun before) e ↔ attributesOf (staleRun before) = [] ∧
      (HasDoc (ownRun before) ∨ docOf (staleRun before) = none) := by
  obtain ⟨hattributes, hdoc⟩ := hasAttached_waitingRun hplaces he
  rw [waitingRun_eq] at hattributes hdoc
  have hdocs : docOf (staleRun before ++ ownRun before) = docOf (ownRun before)
      ↔ HasDoc (ownRun before) ∨ docOf (staleRun before) = none := by
    by_cases hown : HasDoc (ownRun before)
    · simp [docOf_append_of_hasDoc, hown]
    · obtain ⟨hstale, hnone⟩ := docOf_append_of_not_hasDoc (staleRun before) hown
      simp [hstale, hnone, hown]
  rw [← hdocs, ← @List.append_left_eq_self _ _ (attributesOf (ownRun before)),
    ← attributesOf_append, ← hattributes, ← hdoc]
  exact ⟨fun h ↦ ⟨h.attributes, h.doc⟩, fun h ↦ ⟨h.1, h.2⟩⟩

/-- In front of the own run stands a leading token only where a namespace takes it. -/
theorem front_iff :
    (∀ t ∈ ((before.rdropWhile Place.isLeading).flatMap Place.span).getLast?, t.isLeading = false)
      ↔ ∀ p ∈ (before.rdropWhile Place.isLeading).getLast?, ∀ t ∈ p.taken?,
        t.isLeading = false := by
  cases hlast : (before.rdropWhile Place.isLeading).getLast? with
  | none => simp [List.getLast?_eq_none_iff.mp hlast]
  | some p =>
    obtain ⟨front, hfront⟩ := List.getLast?_eq_some_iff.mp hlast
    have hleading : p.isLeading = false := by
      have hne : before.rdropWhile Place.isLeading ≠ [] := by simp [hfront]
      have hp := List.rdropWhile_last_not Place.isLeading before hne
      simpa [hfront] using hp
    have hrest : p.next.rest ≠ [] := by
      rw [← @List.rdropWhile_append_rtakeWhile _ Place.isLeading before, hfront, List.append_assoc,
        List.append_assoc] at hplaces
      intro hnil
      have hafter := places_next hplaces
      rw [hnil, places] at hafter
      simp at hafter
    rw [hfront, List.flatMap_append, List.flatMap_singleton,
      List.getLast?_append_of_ne_nil _ p.span_ne_nil]
    simpa using Place.forall_getLast_span_iff hleading hrest

theorem hasOwn_iff {e : EnumDecl} (he : place.declared = some e) :
    HasOwn before e ↔ IsClear before := by
  have hown := hasAttached_ownRun_iff hplaces he
  constructor
  · rintro ⟨hattached, hfront⟩
    obtain ⟨hattributes, hdoc⟩ := hown.mp hattached
    exact ⟨hattributes, hdoc, (front_iff hplaces).mp hfront⟩
  · rintro ⟨hattributes, hdoc, htaken⟩
    exact ⟨hown.mpr ⟨hattributes, hdoc⟩, (front_iff hplaces).mpr htaken⟩

end Declared

/-- The first places of a source. -/
def firstPlaces (source : String) (n : Nat) : List Place :=
  (places FileState.start (tokens source)).take n

/-- A source declares an enum at the place behind some others. -/
def DeclaresBehind (source : String) (before : List Place) (e : EnumDecl) : Prop :=
  ∃ place after, places FileState.start (tokens source) = before ++ place :: after ∧
    place.declared = some e

theorem exists_declaresBehind {source : String} (n : Nat) {p : EnumDecl → Bool}
    (h : (((places FileState.start (tokens source))[n]?).bind Place.declared).any p = true) :
    ∃ e, DeclaresBehind source (firstPlaces source n) e ∧ p e = true := by
  obtain ⟨e, he, hp⟩ := (Option.any_eq_true _ _).mp h
  obtain ⟨place, hplace, hdeclared⟩ := Option.bind_eq_some_iff.mp he
  obtain ⟨hn, rfl⟩ := List.getElem?_eq_some_iff.mp hplace
  refine ⟨e, ⟨_, (places FileState.start (tokens source)).drop (n + 1), ?_, hdeclared⟩, hp⟩
  rw [firstPlaces, List.getElem_cons_drop, List.take_append_drop]

/-- An enum behind a namespace, with an attribute and a comment of its own. -/
def documentedSource : String := "<?php\nnamespace App;\n\n#[A]\n/** Own. */\nenum E \x7b\x7d"

theorem isClear_documentedSource : IsClear (firstPlaces documentedSource 3) := by
  have htaken : ((firstPlaces documentedSource 3).rdropWhile Place.isLeading).getLast?.all
      (fun p ↦ p.taken?.all fun t ↦ !t.isLeading) = true := by decide +kernel
  constructor
  · exact List.isEmpty_iff.mp (by decide +kernel)
  · exact .inr (by decide +kernel)
  · simpa [Option.all_eq_true] using htaken

/-- A comment at the head of a file, and an enum without one behind the namespace. -/
def headedSource : String := "<?php\n/** File header */\nnamespace App;\n\nenum E \x7b\x7d\n"

end SourceFile

end FrontendSync.Php
