import Bindery.Proofs.Binding.Awaited
import Bindery.Proofs.Project.Batch

/-!
# A unit bound where more names are known

A unit is bound twice, the second time in a project where further names are known. It reads every
reference that it reads the first time, unless a member access spells a known name. What it reads
besides is a known name on its own, so that as long as such names stand for themselves no symbol is
written in another way.

* `Session.Informed`: a session that goes as another one, with further names known.
* **`Session.Informed.take`**, **`Session.Informed.bindStatement`**: one symbol, one statement.
* `Scope.Apart`: the known names that a declaration comes across stand for themselves.
* `Scope.apart_of_plain`: this is a matter of member accesses.
* `Bound.Informed`: a symbol read where less and where more is known.
* **`Session.Informed.declares`**, **`Project.informed_session`**: one statement, a unit.
-/

namespace Bindery

namespace Project

/-! ## Sessions -/

/-- **A session that goes as another one**, where the names in `known` are known from the start. -/
structure Session.Informed (known : String → Option String) (R : Bound → Bound → Prop)
    (s s' : Session) : Prop where
  scope : s.scope.drained = s'.scope.drained
  bound : ∃ bs bs', s.Carries bs ∧ s'.Carries bs' ∧ List.Forall₂ R bs bs'
  names : ∀ n, (s'.store.byShortName? n).map Symbol.qualified =
    ((s.store.byShortName? n).map Symbol.qualified).or (known n)

section Session

variable {store store' : Store} {roll roll' : List Listing} {scope scope' : Scope}
  {s s' : Session} {known : String → Option String} {R : Bound → Bound → Prop}

section Step

variable (h : s.Informed known R s') (hs : s.Extends store roll scope)
  (hs' : s'.Extends store' roll' scope') (hR : ∀ b b', R b b' → b.symbol.bare = b'.symbol.bare)

include h hs hs' hR

theorem Session.Informed.take {b b' : Bound} (hb : R b b') :
    (s.take b).Informed known R (s'.take b') := by
  have hbare := hR b b' hb
  obtain ⟨bs, bs', hc, hc', hbs⟩ := h.bound
  refine ⟨?scope, ⟨_, _, hc.take hs b, hc'.take hs' b', List.rel_append hbs (.cons hb .nil)⟩, ?names⟩
  case scope => rw [s.drained_take, s'.drained_take, h.scope]
  case names =>
    intro n
    rw [s.store_take, s'.store_take, hs.lists.byShortName?_enroll, hs'.lists.byShortName?_enroll,
      Scope.isLibrary_of_drained h.scope, Symbol.name_of_bare hbare]
    split_ifs
    · rw [Option.map_some, Option.map_some, Symbol.qualified_of_bare hbare, Option.some_or]
    · exact h.names n

theorem Session.Informed.takeAll {bs bs' : List Bound} (hb : List.Forall₂ R bs bs')
    (hu : ∀ b ∈ bs, b.symbol.uri = scope.uri) (hu' : ∀ b ∈ bs', b.symbol.uri = scope'.uri) :
    (bs.foldl Session.take s).Informed known R (bs'.foldl Session.take s') := by
  induction hb generalizing s s' with
  | nil => exact h
  | cons hb _ ih =>
    rw [List.forall_mem_cons] at hu hu'
    exact ih (h.take hs hs' hR hb) (hs.take hu.1) (hs'.take hu'.1) hu.2 hu'.2

omit hs hs' hR in
theorem Session.Informed.report (ds ds' : List Diagnostic) : Session.Informed known R
    { s with diagnostics := s.diagnostics ++ ds } { s' with diagnostics := s'.diagnostics ++ ds' } := by
  obtain ⟨bs, bs', hc, hc', hbs⟩ := h.bound
  exact ⟨h.scope, ⟨bs, bs', ⟨hc.owns, hc.holds.imp fun _ _ h => ⟨h.mem, h.symbol, h.queue⟩⟩,
    ⟨hc'.owns, hc'.holds.imp fun _ _ h => ⟨h.mem, h.symbol, h.queue⟩⟩, hbs⟩, h.names⟩

theorem Session.Informed.bindStatement (tree : Tree) (options : Options) (statement : Slot)
    (hb : List.Forall₂ R ((s.context tree options).bind statement).1
      ((s'.context tree options).bind statement).1) :
    (s.bindStatement tree options statement).Informed known R
      (s'.bindStatement tree options statement) := by
  have hu : ∀ b ∈ ((s.context tree options).bind statement).1, b.symbol.uri = scope.uri :=
    fun b hb => (Context.uri_of_mem_bind hb).trans (Scope.uri_of_drained hs.scope)
  have hu' : ∀ b ∈ ((s'.context tree options).bind statement).1, b.symbol.uri = scope'.uri :=
    fun b hb => (Context.uri_of_mem_bind hb).trans (Scope.uri_of_drained hs'.scope)
  have h' := h.report ((s.context tree options).bind statement).2
    ((s'.context tree options).bind statement).2
  exact h'.takeAll ⟨hs.scope, hs.lists, hs.old⟩ ⟨hs'.scope, hs'.lists, hs'.old⟩ hR hb hu hu'

theorem Session.Informed.bindAll (tree : Tree) (options : Options)
    (hb : ∀ {s s' : Session}, s.Informed known R s' → s.Extends store roll scope →
      s'.Extends store' roll' scope' → ∀ statement, List.Forall₂ R
        ((s.context tree options).bind statement).1 ((s'.context tree options).bind statement).1)
    (statements : List Slot) :
    (statements.foldl (Session.bindStatement tree options) s).Informed known R
      (statements.foldl (Session.bindStatement tree options) s') := by
  induction statements generalizing s s' with
  | nil => exact h
  | cons statement statements ih =>
    exact ih (h.bindStatement hs hs' hR tree options statement (hb h hs hs' statement))
      (hs.bindStatement tree options statement) (hs'.bindStatement tree options statement)

end Step

end Session

end Project

/-! ## Names that are known -/

/-- **A node where known names stand for themselves.** -/
structure Scope.ApartAt (s : Scope) (tree : Tree) (known : String → Option String) (i : Nat) :
    Prop where
  /-- A member access that spells the qualified name of a known member leads through nothing that
  the unit declares or imports. -/
  access : ∀ object member, tree.form? (some i) = some (.access object member) →
    known (tree.text member) = some (tree.text object ++ "." ++ tree.text member) →
      ¬(tree.text object ≠ "this" ∧ isQualified (tree.text object) = false ∧
        (s.hasLocal (tree.text object) ∨ s.hasImport (tree.text object))) ∧
      s.isFree (stripArguments (tree.text object ++ "." ++ tree.text member)).1 = true
  /-- An identifier that is a known name and nothing that the unit declares or imports has no type
  arguments that would make it so. -/
  identifier : ∀ text, tree.form? (some i) = some (.identifier text) →
    (known text).isSome = true → isQualified text = false → s.hasLocal text = false →
      s.hasImport text = false → s.isFree (stripArguments text).1 = true

/-- Below a node, known names stand for themselves. -/
def Scope.ApartBelow (s : Scope) (tree : Tree) (known : String → Option String) (i : Nat) : Prop :=
  ∀ j, Reaches (fun k => tree.children (some k)) i j → s.ApartAt tree known j

/-- **In a declaration with this span**, known names stand for themselves. -/
def Scope.Apart (s : Scope) (tree : Tree) (known : String → Option String) (span : Span) : Prop :=
  ∀ i, tree.span? (some i) = some span → s.ApartBelow tree known i

/-- Where no name has type arguments, only member accesses matter. -/
theorem Scope.apart_of_plain {s : Scope} {tree : Tree} {known : String → Option String}
    (hi : ∀ i text, tree.form? (some i) = some (.identifier text) → '<' ∉ text.toList)
    (ha : ∀ i object member, tree.form? (some i) = some (.access object member) →
      known (tree.text member) = some (tree.text object ++ "." ++ tree.text member) →
        '<' ∉ (tree.text object ++ "." ++ tree.text member).toList ∧
        ¬(tree.text object ≠ "this" ∧ isQualified (tree.text object) = false ∧
          (s.hasLocal (tree.text object) ∨ s.hasImport (tree.text object)))) (span : Span) :
    s.Apart tree known span := by
  intro _ _ j _
  refine ⟨fun object member hm hk => ?_, fun text ht _ hq hlocal himport => ?_⟩
  · obtain ⟨hplain, hno⟩ := ha j object member hm hk
    refine ⟨hno, ?_⟩
    have hdot : isQualified (tree.text object ++ "." ++ tree.text member) = true := by
      simp [isQualified]
    rw [stripArguments_of_not_mem hplain, isFree, meaning, if_pos hdot]
  · rw [stripArguments_of_not_mem (hi j text ht), isFree, meaning, hq]
    simp only [hasLocal, hasImport, Table.contains, Bool.or_eq_false_iff,
      Option.isSome_eq_false_iff, Option.isNone_iff_eq_none] at hlocal himport
    simp [hlocal, himport]

/-- **A symbol read where less and where more is known.** -/
structure Bound.Informed (scope : Scope) (tree : Tree) (known : String → Option String)
    (b b' : Bound) : Prop where
  bare : b.symbol.bare = b'.symbol.bare
  cognate : tree.HasNamedBases → b.Cognate b'
  beside : scope.Apart tree known b.symbol.span → b.Beside scope.isFree b'

namespace Project

section Session

variable {store store' : Store} {roll roll' : List Listing} {scope : Scope}
  {s s' : Session} {known : String → Option String} {R : Bound → Bound → Prop}
  (h : s.Informed known R s') (hs : s.Extends store roll scope)
  (hs' : s'.Extends store' roll' scope) (tree : Tree) (options : Options)

include h hs hs'

/-- **A member access** reads the same, or a member that is known only the second time. -/
theorem Session.Informed.accessReference {i : Nat} {object member : Slot}
    (ha : scope.ApartAt tree known i)
    (hform : tree.form? (some i) = some (.access object member)) (strong : Bool) :
    Padded
      (fun n => (∃ m, (known m).isSome = true) ∧ scope.isFree (stripArguments n).1 = true)
      ((s.context tree options).accessReference object member strong)
      ((s'.context tree options).accessReference object member strong) := by
  unfold Context.accessReference Context.knownMember?
  simp only [Session.context, Scope.hasLocal_of_drained hs.scope, Scope.hasImport_of_drained hs.scope,
    Scope.hasLocal_of_drained hs'.scope, Scope.hasImport_of_drained hs'.scope,
    h.names (tree.text member)]
  cases tree.span? object with
  | none => exact .nil
  | some span =>
    dsimp only
    cases (s.store.byShortName? (tree.text member)).map Symbol.qualified with
    | some q => exact .refl _
    | none =>
      rw [Option.none_or, Option.filter_none]
      cases hk : known (tree.text member) with
      | none => exact .refl _
      | some q =>
        by_cases hq : q = tree.text object ++ "." ++ tree.text member
        · -- Only the second time the member is known.
          subst hq
          obtain ⟨hno, hfree⟩ := ha.access object member hform hk
          simp only [if_neg hno, Option.filter_some, decide_true, if_true]
          exact .extra ⟨⟨_, by rw [hk]; rfl⟩, hfree⟩ .nil
        · simp only [Option.filter_some, hq, decide_false, Bool.false_eq_true, if_false]
          exact .refl _

theorem Session.Informed.isKnown (text : String) : (s'.context tree options).isKnown text =
    ((s.context tree options).isKnown text || (known text).isSome) := by
  have hholder : (s'.store.names.byShortName? text).isSome =
      ((s.store.names.byShortName? text).isSome || (known text).isSome) := by
    have hname := congrArg Option.isSome (h.names text)
    rwa [Option.isSome_or, Option.isSome_map, Option.isSome_map, hs.lists.isSome_byShortName?,
      hs'.lists.isSome_byShortName?] at hname
  simp only [Context.isKnown, Session.context, Scope.hasLocal_of_drained hs.scope,
    Scope.hasImport_of_drained hs.scope, Scope.hasLocal_of_drained hs'.scope,
    Scope.hasImport_of_drained hs'.scope, hholder]
  ac_rfl

theorem Session.Informed.identifierReference {i : Nat} {text : String}
    (ha : scope.ApartAt tree known i) (hform : tree.form? (some i) = some (.identifier text))
    (strong : Bool) :
    Padded
      (fun n => (∃ m, (known m).isSome = true) ∧ scope.isFree (stripArguments n).1 = true)
      ((s.context tree options).identifierReference (some i) text strong)
      ((s'.context tree options).identifierReference (some i) text strong) := by
  unfold Context.identifierReference
  rw [h.isKnown hs hs' tree options]
  cases hk : (s.context tree options).isKnown text with
  | true => exact .refl _
  | false =>
    -- What is known only the second time is no declaration and no import.
    simp only [Context.isKnown, Session.context, Scope.hasLocal_of_drained hs.scope,
      Scope.hasImport_of_drained hs.scope, Bool.or_eq_false_iff] at hk
    simp only [Bool.not_false, Bool.or_true, if_true, Bool.false_or]
    split_ifs with hno
    · exact .nil
    · simp only [Bool.or_eq_true, Bool.not_eq_true', not_or, Bool.not_eq_false] at hno
      cases (s'.context tree options).tree.span? (some i) with
      | none => exact .nil
      | some span =>
        refine .extra ⟨⟨text, hno.2⟩, ?_⟩ .nil
        exact ha.identifier text hform hno.2 (by simpa using hno.1.2) hk.1.2 hk.2

/-- **What is read besides** where known names stand for themselves. If nothing else is known,
nothing is read besides. -/
theorem Session.Informed.readsMore : (s.context tree options).ReadsMore
    (fun n => (∃ m, (known m).isSome = true) ∧ scope.isFree (stripArguments n).1 = true)
    (scope.ApartBelow tree known) (s'.context tree options) where
  tree := .refl _
  options := rfl
  uri := Scope.uri_of_drained h.scope
  path := Scope.path_of_drained h.scope
  kind := Scope.kind_of_drained h.scope
  children _ := rfl
  down ha hc _ j hj := ha j (.head hc hj)
  access _ c _ _ strong ha hc hform :=
    h.accessReference hs hs' tree options (ha c (.step .refl hc)) hform strong
  identifier _ c _ strong ha hc hform :=
    h.identifierReference hs hs' tree options (ha c (.step .refl hc)) hform strong

theorem Session.Informed.declares (statement : Slot) :
    List.Forall₂ (Bound.Informed scope tree known) ((s.context tree options).bind statement).1
      ((s'.context tree options).bind statement).1 := by
  have hunit : (s.context tree options).SameUnit (s'.context tree options) := ⟨rfl, rfl, h.scope⟩
  have hfree : (s.context tree options).scope.isFree = scope.isFree :=
    Scope.isFree_of_drained hs.scope
  obtain ⟨results, results', hr, hb, hb'⟩ :=
    hunit.results ((h.readsMore hs hs' tree options).declarations statement)
  have hmem : ∀ r ∈ results, r.1 ∈ ((s.context tree options).bind statement).1 := by
    rw [hb]
    exact fun r => List.mem_map_of_mem
  have hmem' : ∀ r ∈ results', r.1 ∈ ((s'.context tree options).bind statement).1 := by
    rw [hb']
    exact fun r => List.mem_map_of_mem
  have hall := (List.forall₂_and_left _ _).mpr
    ⟨hmem', ((List.forall₂_and_left _ _).mpr ⟨hmem, hr⟩).flip⟩
  rw [show (_ : List Bound × List Diagnostic).1 = _ from congrArg Prod.fst hb,
    show (_ : List Bound × List Diagnostic).1 = _ from congrArg Prod.fst hb',
    List.forall₂_map_left_iff, List.forall₂_map_right_iff]
  apply hall.flip.imp
  intro r r' ⟨hr', hr, hak, d, d', hread, hd, hd'⟩
  obtain ⟨x, rs⟩ := d
  obtain ⟨x', rs'⟩ := d'
  obtain rfl : x = x' := hread.symbol
  have hbare : r.1.symbol.bare = r'.1.symbol.bare := hd.bare.trans hd'.bare.symm
  refine ⟨hbare, fun hn => hunit.cognate hn hr hr' hbare hak.info, fun ha => ?_⟩
  obtain ⟨i, hplace, hreferences⟩ := hread.references
  have hspan : x.span = r.1.symbol.span := (congrArg Symbol.span hd.bare.symm :)
  have hbelow := ha i (hplace.span.trans (congrArg some hspan))
  have hpadded := hreferences fun root hroot j hj => by
    rcases Tree.mem_textRoots hplace.node hroot with rfl | hroot
    · exact hbelow j hj
    · exact hbelow j (.head hroot hj)
  rw [← hfree]
  refine Context.IsBoundAs.beside hd (hunit.sameMeaning.symm.reflects hd') (hpadded.imp ?_) hak.info
  rw [hfree]
  exact fun n => And.right

end Session

/-! ## Units -/

section Unit

variable {p q : Project} {scope : Scope} {known : String → Option String}
  (ho : p.options = q.options) (hb : p.builtins = q.builtins) (hl : p.store.Lists p.roll)
  (hl' : q.store.Lists q.roll) (hf : scope.IsFresh) (tree : Tree)

include hb in
theorem unitScope_congr (scope : Scope) : p.unitScope tree scope = q.unitScope tree scope := by
  rw [unitScope, hb, unitScope]

include hb hf in
theorem informed_start {R : Bound → Bound → Prop}
    (hp : ∀ n, (q.store.byShortName? n).map Symbol.qualified =
      ((p.store.byShortName? n).map Symbol.qualified).or (known n)) :
    Session.Informed known R { store := p.store, scope := p.unitScope tree scope }
      { store := q.store, scope := q.unitScope tree scope } :=
  ⟨congrArg Scope.drained (unitScope_congr hb tree scope),
    ⟨[], [], Session.carries_start hf p tree, Session.carries_start hf q tree, .nil⟩, hp⟩

variable (hp : ∀ n, (q.store.byShortName? n).map Symbol.qualified =
  ((p.store.byShortName? n).map Symbol.qualified).or (known n))

include ho hb hl hl' hf hp

/-- **A unit is bound where more is known.** -/
theorem informed_session : ∃ bs bs', (p.session tree scope).Carries bs ∧
    (q.session tree scope).Carries bs' ∧
      List.Forall₂ (Bound.Informed (p.unitScope tree scope) tree known) bs bs' := by
  have hs' := Session.extends_start hl' (q.unitScope tree scope)
  rw [session, session, ← ho]
  apply @Session.Informed.bound known
  apply (informed_start hb hf tree hp).bindAll (Session.extends_start hl _) hs'
    (fun _ _ h => h.bare) tree p.options
  intro s s' h hs hs' statement
  rw [← unitScope_congr hb tree scope] at hs'
  exact h.declares hs hs' tree p.options statement

end Unit

end Project

end Bindery
