import Mathlib.Data.List.Forall2
import Bindery.Binding.Declaration
import Bindery.Proofs.Binding.Padded
import Bindery.Proofs.Binding.Resolution
import Bindery.Proofs.Tree.Reading
import Bindery.Proofs.Tree.Walk

/-!
# Declarations and their references

A statement is bound in two steps: first it is read which symbols it declares and what each of them
refers to, then these references are resolved.

* `Context.inherit_induction`: what every type of the heritage clauses keeps.
* `Context.declarations`: the symbols of a statement, each with its references in order.
* **`Context.forall₂_bind`**: binding a statement is resolving the references of its declarations.
* `Context.ReadsMore`, `Context.Reread`, **`Context.ReadsMore.declarations`**: the same declarations
  are read with more references.
* `Context.Alike`, **`Context.Alike.declarations`**: contexts that know the same names read the same
  declarations.
-/

namespace Bindery.Context

open Draft

variable (cx : Context)

/-! ## Heritage -/

/-- A type of a heritage clause. -/
structure Inherited where
  clause : Slot
  kind : HeritageKind
  shape : TypeShape

/-- The types of a heritage clause. -/
def inherited (clause : Slot) : List Inherited :=
  match cx.tree.form? clause with
  | some (.heritage kind types) =>
    (types.filterMap (TypeShape.ofNode? cx.tree)).map fun shape => ⟨clause, kind, shape⟩
  | _ => []

/-- What a type of a heritage clause refers to. In a library nothing is looked up. -/
def shapeReferences (hidden : List String) (shape : TypeShape) : List Reference :=
  if cx.scope.isLibrary then []
  else shape.references.map fun w =>
    { name := w.value, span := some w.nameSpan, strong := true, hidden }

/-- What the heritage clauses of a class refer to. -/
def heritageReferences (hidden : List String) (clauses : List Slot) : List Reference :=
  (clauses.flatMap cx.inherited).flatMap fun x => cx.shapeReferences hidden x.shape

/-- Take in one type of a heritage clause. -/
def inheritShape (hidden : List String) (l : Lineage) (x : Inherited) : Lineage :=
  let (draft, target) := cx.heritageTarget hidden x.shape l.draft
  match x.kind with
  | .extending => cx.extend x.clause x.shape target { l with draft }
  | .implementing => implement target { l with draft }

theorem inheritClause_eq (hidden : List String) (l : Lineage) (clause : Slot) :
    cx.inheritClause hidden l clause = (cx.inherited clause).foldl (cx.inheritShape hidden) l := by
  unfold inheritClause inherited
  rcases cx.tree.form? clause with _ | form
  · rfl
  cases form with
  | heritage kind types =>
    show types.foldl _ l = List.foldl _ l (List.map _ _)
    rw [List.foldl_map, List.foldl_filterMap]
    congr 1
    funext l type
    unfold inheritType
    cases TypeShape.ofNode? cx.tree type <;> rfl
  | _ => rfl

/-- The types of all clauses are read one after the other. -/
theorem inherit_eq (hidden : List String) (s : Symbol) (clauses : List Slot) :
    cx.inherit hidden s clauses = (clauses.flatMap cx.inherited).foldl (cx.inheritShape hidden)
      { draft := { symbol := s } } := by
  rw [List.foldl_flatMap, inherit]
  congr 1
  funext l clause
  exact cx.inheritClause_eq hidden l clause

section Lineage

variable {cx} {s : Symbol} {rs : List Reference} {l : Lineage}

/-- **What every type of the clauses keeps** holds when all of them have been read. -/
theorem inherit_induction {P : List Inherited → Lineage → Prop} {hidden : List String}
    (start : P [] { draft := { symbol := s } })
    (step : ∀ xs l x, P xs l → P (xs ++ [x]) (cx.inheritShape hidden l x)) (clauses : List Slot) :
    P (clauses.flatMap cx.inherited) (cx.inherit hidden s clauses) := by
  rw [inherit_eq]
  suffices hall : ∀ (ys xs : List Inherited) (l : Lineage), P xs l →
      P (xs ++ ys) (ys.foldl (cx.inheritShape hidden) l) from hall _ [] _ start
  intro ys
  induction ys with
  | nil => exact fun xs l h => by rwa [List.append_nil]
  | cons y ys ih =>
    intro xs l h
    rw [List.append_cons]
    exact ih _ _ (step xs l y h)

theorem reflects_extend (h : l.draft.Reflects cx s rs) (clause : Slot) (shape : TypeShape)
    (target : Option String) : (cx.extend clause shape target l).draft.Reflects cx s rs := by
  simp only [extend]
  split_ifs
  · exact h.updateClass _
  · cases target with
    | none => exact h
    | some t => exact h.updateClass _
  · exact h
  · exact h

theorem reflects_implement (h : l.draft.Reflects cx s rs) (target : Option String) :
    (implement target l).draft.Reflects cx s rs := by
  cases target with
  | none => exact h
  | some t => exact h.updateClass _

theorem reflects_heritageTarget {d : Draft} (h : d.Reflects cx s rs) (hidden : List String)
    (shape : TypeShape) :
    (cx.heritageTarget hidden shape d).1.Reflects cx s (rs ++ cx.shapeReferences hidden shape) := by
  unfold heritageTarget shapeReferences
  split_ifs
  · rwa [List.append_nil]
  · exact (h.resolveFirst _).1

theorem reflects_inheritShape (h : l.draft.Reflects cx s rs) (hidden : List String)
    (x : Inherited) : (cx.inheritShape hidden l x).draft.Reflects cx s
      (rs ++ cx.shapeReferences hidden x.shape) := by
  have hd := reflects_heritageTarget h hidden x.shape
  unfold inheritShape
  cases x.kind with
  | extending => exact reflects_extend hd _ _ _
  | implementing => exact reflects_implement hd _

theorem reflects_inherit (h : ({ symbol := s } : Draft).Reflects cx s []) (hidden : List String)
    (clauses : List Slot) :
    (cx.inherit hidden s clauses).draft.Reflects cx s (cx.heritageReferences hidden clauses) := by
  refine inherit_induction (P := fun xs l => l.draft.Reflects cx s
    (xs.flatMap fun x => cx.shapeReferences hidden x.shape)) h (fun xs l x hl => ?_) clauses
  rw [List.flatMap_append, List.flatMap_singleton]
  exact reflects_inheritShape hl hidden x

end Lineage

/-! ## Declarations -/

/-- What a class or interface refers to: its heritage, then its body. -/
def classReferences (i : Nat) (parts : ClassParts) : List Reference :=
  cx.heritageReferences (cx.parameterNames parts.typeParameters) parts.heritage ++
    cx.bodyReferences i parts (cx.parameterNames parts.typeParameters)

/-- A class or interface with its references. -/
def declareClass (kind : ClassKind) (i : Nat) (parts : ClassParts) :
    Option (Symbol × List Reference) :=
  (cx.newSymbol? (classSymbolKind kind) (some i) parts.name parts.header).map fun symbol =>
    let data := cx.newClassInfo kind i (cx.parameterNames parts.typeParameters) symbol
    ({ symbol with classInfo := some data }, cx.classReferences i parts)

/-- A declaration without members, with its references. -/
def declarePlain (kind : SymbolKind) (i : Nat) (name : Slot) (header : Header) :
    Option (Symbol × List Reference) :=
  (cx.newSymbol? kind (some i) name header).map fun symbol => (symbol, cx.plainReferences i header)

/-- One declaration of a variable statement, with its references. -/
def declareVariable (header : Header) (d : Slot) : Option (Symbol × List Reference) := do
  let form ← cx.tree.form? d
  cx.declarePlain .variableSymbol (← d) form.name header

/-- The symbols that a statement declares, each with its references in order. -/
def declarations (statement : Slot) : List (Symbol × List Reference) :=
  match statement, cx.tree.form? statement with
  | some i, some form =>
    match form with
    | .classLike kind parts => (cx.declareClass kind i parts).toList
    | .enumeration header name _ => (cx.declarePlain .enumeration i name header).toList
    | .function .declaration f => (cx.declarePlain .function i f.name f.header).toList
    | .typeAlias header name _ _ => (cx.declarePlain .typeAlias i name header).toList
    | .variableStatement header declarations =>
      declarations.filterMap (cx.declareVariable header)
    | _ => []
  | _, _ => []

/-- A bound symbol holds what its references add up to. -/
def IsBoundAs (declared : Symbol × List Reference) (b : Bound) : Prop :=
  Draft.Reflects cx declared.1 declared.2 ⟨b.symbol, b.deferred⟩

section Bind

variable {cx}

theorem exists_of_newSymbol? {kind : SymbolKind} {i name : Slot} {header : Header} {s : Symbol}
    (h : cx.newSymbol? kind i name header = some s) : ∃ text span,
      cx.tree.identifier? name = some text ∧ cx.tree.span? i = some span ∧
        s = {
          name := text
          path := cx.scope.path
          qualified := cx.scope.qualify text
          uri := cx.scope.uri
          kind
          span
          nameSpan := (cx.tree.span? name).getD span
          content := cx.tree.text i
          decorators := Decorator.ofHeader cx.tree header
          isExported := .exported ∈ header.modifiers.filterMap cx.tree.modifier?
          docs := header.docs
          ignored := cx.options.ignored } := by
  simp only [newSymbol?, Option.bind_eq_bind, Option.bind_eq_some_iff, Option.pure_def,
    Option.some.injEq] at h
  obtain ⟨text, htext, span, hspan, rfl⟩ := h
  exact ⟨text, span, htext, hspan, rfl⟩

theorem reflects_newSymbol? {kind : SymbolKind} {i name : Slot} {header : Header} {s : Symbol}
    (h : cx.newSymbol? kind i name header = some s) (c : Option ClassInfo) :
    ({ symbol := { s with classInfo := c } } : Draft).Reflects cx { s with classInfo := c } [] := by
  obtain ⟨_, _, _, _, rfl⟩ := exists_of_newSymbol? h
  exact reflects_start rfl rfl rfl

theorem rel_bindPlain (kind : SymbolKind) (i : Nat) (name : Slot) (header : Header) :
    Option.Rel (fun p b => cx.IsBoundAs p b.1) (cx.declarePlain kind i name header)
      (cx.bindPlain kind i name header) := by
  unfold declarePlain bindPlain
  cases h : cx.newSymbol? kind (some i) name header with
  | none => exact .none
  | some s => exact .some ((reflects_newSymbol? h s.classInfo).resolveAll _)

theorem rel_bindClass (kind : ClassKind) (i : Nat) (parts : ClassParts) :
    Option.Rel (fun p b => cx.IsBoundAs p b.1) (cx.declareClass kind i parts)
      (cx.bindClass kind i parts) := by
  unfold declareClass bindClass
  cases h : cx.newSymbol? (classSymbolKind kind) (some i) parts.name parts.header with
  | none => exact .none
  | some s =>
    refine .some ?_
    have hi := reflects_inherit (reflects_newSymbol? h
      (some (cx.newClassInfo kind i (cx.parameterNames parts.typeParameters) s)))
      (cx.parameterNames parts.typeParameters) parts.heritage
    exact (hi.setClass rfl _).resolveAll _

theorem rel_bindVariable (header : Header) (d : Slot) :
    Option.Rel (fun p b => cx.IsBoundAs p b.1) (cx.declareVariable header d)
      (cx.bindVariable header d) := by
  unfold declareVariable bindVariable
  cases cx.tree.form? d with
  | none => exact .none
  | some form =>
    cases d with
    | none => exact .none
    | some i => exact rel_bindPlain .variableSymbol i form.name header

theorem forall₂_gather {declared : List (Option (Symbol × List Reference))}
    {results : List (Option (Bound × List Diagnostic))}
    (h : List.Forall₂ (Option.Rel fun p b => cx.IsBoundAs p b.1) declared results) :
    List.Forall₂ cx.IsBoundAs (declared.filterMap id) (gather results).1 := by
  rw [gather, List.forall₂_map_right_iff]
  exact List.rel_filterMap (fun _ _ hr => hr) h

theorem forall₂_bindVariables (header : Header) (ds : List Slot) :
    List.Forall₂ cx.IsBoundAs (ds.filterMap (cx.declareVariable header))
      (gather (ds.map (cx.bindVariable header))).1 := by
  have hd : ds.filterMap (cx.declareVariable header) =
      (ds.map (cx.declareVariable header)).filterMap id := by
    rw [List.filterMap_map]
    rfl
  rw [hd]
  refine forall₂_gather ?_
  rw [List.forall₂_map_left_iff, List.forall₂_map_right_iff, List.forall₂_same]
  intro d _
  exact rel_bindVariable header d

/-- **Binding a statement is resolving the references of its declarations.** -/
theorem forall₂_bind (statement : Slot) :
    List.Forall₂ cx.IsBoundAs (cx.declarations statement) (cx.bind statement).1 := by
  have one : ∀ {p b}, Option.Rel (fun p b => cx.IsBoundAs p b.1) p b →
      List.Forall₂ cx.IsBoundAs p.toList (gather [b]).1 := fun {p b} h => by
    rw [show p.toList = [p].filterMap id by cases p <;> rfl]
    exact forall₂_gather (.cons h .nil)
  unfold declarations bind
  rcases statement with _ | i
  · exact .nil
  rcases cx.tree.form? (some i) with _ | form
  · exact .nil
  cases form with
  | classLike kind parts => exact one (rel_bindClass kind i parts)
  | enumeration header name _ => exact one (rel_bindPlain _ i name header)
  | function kind f =>
    cases kind with
    | declaration => exact one (rel_bindPlain _ i f.name f.header)
    | _ => exact .nil
  | typeAlias header name _ _ => exact one (rel_bindPlain _ i name header)
  | variableStatement header declarations =>
    exact forall₂_bindVariables header declarations
  | _ => exact .nil

theorem exists_of_mem_bind {statement : Slot} {b : Bound} (h : b ∈ (cx.bind statement).1) :
    ∃ d ∈ cx.declarations statement, cx.IsBoundAs d b := by
  obtain ⟨k, hk, rfl⟩ := List.mem_iff_getElem.mp h
  have hf : List.Forall₂ cx.IsBoundAs _ _ := forall₂_bind statement
  have hk' : k < (cx.declarations statement).length := hf.length_eq ▸ hk
  exact ⟨_, List.getElem_mem hk', hf.get hk' hk⟩

end Bind

/-! ## The unit of a declaration -/

section Unit

variable {cx} {p : Symbol × List Reference}

theorem unit_newSymbol? {kind : SymbolKind} {i name : Slot} {header : Header} {s : Symbol}
    (h : cx.newSymbol? kind i name header = some s) :
    s.uri = cx.scope.uri ∧ s.ignored = cx.options.ignored := by
  obtain ⟨_, _, _, _, rfl⟩ := exists_of_newSymbol? h
  exact ⟨rfl, rfl⟩

theorem newSymbol?_of_declarePlain {kind : SymbolKind} {i : Nat} {name : Slot} {header : Header}
    (h : cx.declarePlain kind i name header = some p) :
    cx.newSymbol? kind (some i) name header = some p.1 := by
  obtain ⟨s, hs, rfl⟩ := Option.map_eq_some_iff.mp h
  exact hs

theorem newSymbol?_of_mem_declarations {statement : Slot} (h : p ∈ cx.declarations statement) :
    ∃ kind i name header s, cx.newSymbol? kind i name header = some s ∧
      p.1 = { s with classInfo := p.1.classInfo } := by
  unfold declarations at h
  split at h
  · split at h
    · obtain ⟨s, hs, rfl⟩ := Option.map_eq_some_iff.mp (Option.mem_toList.mp h)
      exact ⟨_, _, _, _, s, hs, rfl⟩
    · exact ⟨_, _, _, _, _, newSymbol?_of_declarePlain (Option.mem_toList.mp h), rfl⟩
    · exact ⟨_, _, _, _, _, newSymbol?_of_declarePlain (Option.mem_toList.mp h), rfl⟩
    · exact ⟨_, _, _, _, _, newSymbol?_of_declarePlain (Option.mem_toList.mp h), rfl⟩
    · obtain ⟨d, _, hd⟩ := List.mem_filterMap.mp h
      simp only [declareVariable, Option.bind_eq_bind, Option.bind_eq_some_iff] at hd
      obtain ⟨_, _, _, _, hd⟩ := hd
      exact ⟨_, _, _, _, _, newSymbol?_of_declarePlain hd, rfl⟩
    · cases h
  · cases h

/-- The declarations of a unit carry its uri, and ignore the same names. -/
theorem unit_of_mem_declarations {statement : Slot} (h : p ∈ cx.declarations statement) :
    p.1.uri = cx.scope.uri ∧ p.1.ignored = cx.options.ignored := by
  obtain ⟨_, _, _, _, s, hs, he⟩ := newSymbol?_of_mem_declarations h
  have hu := unit_newSymbol? hs
  rw [he]
  exact hu

theorem uri_of_mem_bind {statement : Slot} {b : Bound} (h : b ∈ (cx.bind statement).1) :
    b.symbol.uri = cx.scope.uri := by
  obtain ⟨d, hd, hb⟩ := exists_of_mem_bind h
  exact (Symbol.uri_of_bare hb.bare).trans (unit_of_mem_declarations hd).1

end Unit

/-! ## What a declaration is read from -/

/-- **Contexts of one unit, the second of which reads more references** below the nodes in `D`, to
names that satisfy `E`. Where it does so is a matter of member accesses and identifiers. -/
structure ReadsMore (E : String → Prop) (D : Nat → Prop) (cx cx' : Context) : Prop where
  tree : cx.tree.ReadsAs cx'.tree
  options : cx.options = cx'.options
  uri : cx.scope.uri = cx'.scope.uri
  path : cx.scope.path = cx'.scope.path
  kind : cx.scope.kind = cx'.scope.kind
  children : ∀ {i}, D i → cx.tree.children (some i) = cx'.tree.children (some i)
  down : ∀ {i c}, D i → c ∈ cx.tree.children (some i) →
    (∀ form ∈ cx.tree.form? (some c), form.isOpen = true) → D c
  access : ∀ i c object member strong, D i → c ∈ cx.tree.children (some i) →
    cx.tree.form? (some c) = some (.access object member) →
      Padded E (cx.accessReference object member strong) (cx'.accessReference object member strong)
  identifier : ∀ i c text strong, D i → c ∈ cx.tree.children (some i) →
    cx.tree.form? (some c) = some (.identifier text) →
      Padded E (cx.identifierReference (some c) text strong)
        (cx'.identifierReference (some c) text strong)

/-- **A declaration that is read again**: if the walk starts at nodes in `D`, with more references to
names that satisfy `E`. -/
structure Reread (E : String → Prop) (D : Nat → Prop) (statement : Slot)
    (d d' : Symbol × List Reference) : Prop where
  symbol : d.1 = d'.1
  references : ∃ i, cx.tree.DeclaresAt statement i d.1.name d.1.span ∧
    ((∀ root ∈ cx.tree.textRoots statement i, D root) → Padded E d.2 d'.2)

variable {cx} in
theorem declaresAt_newSymbol? {kind : SymbolKind} {i : Nat} {statement : Slot} {form : Form}
    {header : Header} {s : Symbol} (hi : cx.tree.form? (some i) = some form)
    (hnode : some i ∈ cx.tree.declarationNodes statement)
    (hs : cx.newSymbol? kind (some i) form.name header = some s) :
    cx.tree.DeclaresAt statement i s.name s.span := by
  obtain ⟨text, span, htext, hspan, rfl⟩ := exists_of_newSymbol? hs
  refine ⟨hnode, ?_, hspan⟩
  cases hname : form.name with
  | none =>
    rw [hname] at htext
    cases htext
  | some j =>
    rw [hname] at htext
    rw [Tree.declaredName?, hi, Option.bind_eq_bind, Option.bind_some, hname]
    simp [htext]

namespace ReadsMore

variable {cx} {cx' : Context} {E : String → Prop} {D : Nat → Prop} (h : cx.ReadsMore E D cx')

include h

theorem isLibrary : cx.scope.isLibrary = cx'.scope.isLibrary := by
  rw [Scope.isLibrary, h.kind, Scope.isLibrary]

theorem typeReferences : cx.typeReferences = cx'.typeReferences := by
  funext strong i
  rw [Context.typeReferences, h.tree.ofNode?, Context.typeReferences]

/-- The node itself. What else is looked at is a part of a call or a member access. -/
theorem expressionReferences (fuel : Nat) (strong : Bool) {c : Slot}
    (hc : ∀ j ∈ c, ∃ i, D i ∧ j ∈ cx.tree.children (some i)) :
    Padded E (cx.expressionReferences fuel strong c) (cx'.expressionReferences fuel strong c) := by
  induction fuel generalizing c with
  | zero => exact .nil
  | succ fuel ih =>
    unfold Context.expressionReferences
    rw [h.typeReferences]
    rcases h.tree.form c with he | ⟨ss, ss', he, he'⟩
    · rw [← he]
      cases c with
      | none => exact .nil
      | some c =>
        obtain ⟨i, hi, hc⟩ := hc c rfl
        have hdown : ∀ {form object}, cx.tree.form? (some c) = some form → form.isOpen = true →
            object ∈ form.slots → ∀ j ∈ object, ∃ i, D i ∧ j ∈ cx.tree.children (some i) := by
          rintro form object hform hopen hobject j rfl
          refine ⟨c, h.down hi hc ?_, Tree.mem_children_of_slots hform hobject⟩
          rw [hform]
          rintro _ ⟨⟩
          exact hopen
        cases hform : cx.tree.form? (some c) with
        | none => exact .nil
        | some form =>
          cases form with
          | instantiation _ _ => exact .refl _
          | call _ callee _ _ => exact ih (hdown hform rfl List.mem_cons_self)
          | access object member =>
            exact (h.access i c object member strong hi hc hform).append
              (ih (hdown hform rfl List.mem_cons_self))
          | identifier text => exact h.identifier i c text strong hi hc hform
          | _ => exact .nil
    · rw [he, he']
      exact .nil

theorem below (strong : Bool) {i : Nat} (hi : D i) :
    Padded E (cx.below strong i) (cx'.below strong i) := by
  have hto : ∀ depth i, D i → Padded E (cx.belowTo depth strong i) (cx'.belowTo depth strong i) := by
    intro depth
    induction depth with
    | zero => exact fun _ _ => .nil
    | succ depth ih =>
      intro i hi
      unfold belowTo
      rw [← h.children hi]
      apply Padded.flatMap
      intro c hc
      have hexpression : ∀ j ∈ some c, ∃ i, D i ∧ j ∈ cx.tree.children (some i) := by
        rintro j ⟨⟩
        exact ⟨i, hi, hc⟩
      -- An open node is looked at on its own, then the walk goes on below it.
      have hnode : (∀ form ∈ cx.tree.form? (some c), form.isOpen = true) →
          Padded E (cx.expressionReferences (cx'.tree.size + 1) strong (some c) ++
              cx.belowTo depth strong c)
            (cx'.expressionReferences (cx'.tree.size + 1) strong (some c) ++
              cx'.belowTo depth strong c) := fun hopen =>
        (h.expressionReferences _ strong hexpression).append (ih c (h.down hi hc hopen))
      unfold belowNode
      rw [h.tree.size, h.typeReferences]
      rcases h.tree.form (some c) with he | ⟨ss, ss', he, he'⟩
      · rw [← he]
        cases hform : cx.tree.form? (some c) with
        | none => exact hnode (by simp [hform])
        | some form =>
          cases form with
          | typeReference _ _ => exact .refl _
          | instantiation _ _ => exact .refl _
          | _ => exact hnode (by simp [hform, Form.isOpen])
      · rw [he, he']
        exact hnode (by simp [he, Form.isOpen])
  exact hto _ i hi

theorem declaredReferences : cx.declaredReferences = cx'.declaredReferences := by
  funext header
  rw [Context.declaredReferences, h.tree.requirements, Context.declaredReferences]

theorem parameterNames : cx.parameterNames = cx'.parameterNames := by
  funext ps
  rw [Context.parameterNames, h.tree.declaredName?, Context.parameterNames]

theorem newSymbol? : cx.newSymbol? = cx'.newSymbol? := by
  funext kind i name header
  unfold Context.newSymbol? Scope.qualify
  rw [h.tree.identifier?, h.tree.span?, h.tree.text, h.tree.ofHeader, h.tree.modifier?, h.options,
    h.uri, h.path]

theorem ownTypeParameters : cx.ownTypeParameters = cx'.ownTypeParameters := by
  funext i
  unfold Context.ownTypeParameters
  rw [h.parameterNames]
  rcases h.tree.form i with he | ⟨ss, ss', he, he'⟩
  · rw [he]
  · rw [he, he']

theorem plainReferences {i : Nat} (hi : D i) (header : Header) :
    Padded E (cx.plainReferences i header) (cx'.plainReferences i header) := by
  unfold Context.plainReferences
  rw [h.isLibrary, h.ownTypeParameters, h.declaredReferences]
  split_ifs
  · exact .nil
  · exact ((Padded.refl _).append (h.below false hi)).shade _

theorem memberTypeParameters : cx.memberTypeParameters = cx'.memberTypeParameters := by
  funext i
  unfold Context.memberTypeParameters
  rw [h.parameterNames]
  rcases h.tree.form (some i) with he | ⟨ss, ss', he, he'⟩
  · rw [he]
  · rw [he, he']

theorem isStrongMember : cx.isStrongMember = cx'.isStrongMember := by
  funext i
  unfold Context.isStrongMember
  rw [h.tree.modifiers]
  rcases h.tree.form (some i) with he | ⟨ss, ss', he, he'⟩
  · rw [he]
  · rw [he, he']

theorem memberReferences (parameters : List String) {i : Nat} (hi : D i) :
    Padded E (cx.memberReferences parameters i) (cx'.memberReferences parameters i) := by
  unfold Context.memberReferences
  rw [h.memberTypeParameters, h.isStrongMember]
  exact (h.below _ hi).shade _

theorem inherited : cx.inherited = cx'.inherited := by
  funext clause
  unfold Context.inherited
  rw [h.tree.ofNode?]
  rcases h.tree.form clause with he | ⟨ss, ss', he, he'⟩
  · rw [he]
  · rw [he, he']

theorem heritageReferences : cx.heritageReferences = cx'.heritageReferences := by
  funext hidden clauses
  unfold Context.heritageReferences shapeReferences
  rw [h.inherited, h.isLibrary]

theorem bodyReferences {kind : ClassKind} {i : Nat} {parts : ClassParts}
    (hform : cx.tree.form? (some i) = some (.classLike kind parts))
    (hi : ∀ root ∈ cx.tree.textRoots (some i) i, D root) (parameters : List String) :
    Padded E (cx.bodyReferences i parts parameters) (cx'.bodyReferences i parts parameters) := by
  have hroot : ∀ c ∈ cx.tree.children (some i),
      (some c ∈ parts.header.decorators ∨ some c ∉ parts.heritage) → D c :=
    fun c hc hor => hi c ((Tree.mem_textRoots_classLike hform).mpr ⟨hc, hor⟩)
  have hmember : ∀ c ∈ cx.memberNodes i parts, D c := by
    intro c hc
    obtain ⟨hc, hno⟩ := List.mem_filter.mp hc
    exact hroot c hc (.inr (of_decide_eq_true hno).1)
  have hdecorator : ∀ c ∈ parts.header.decorators.filterMap id, D c := by
    intro c hc
    obtain ⟨slot, hslot, rfl⟩ := List.mem_filterMap.mp hc
    refine hroot c (Tree.mem_children_of_slots hform ?_) (.inl hslot)
    simp [Form.slots, Header.slots, hslot]
  have hnodes : cx'.memberNodes i parts = cx.memberNodes i parts := by
    unfold memberNodes Tree.children
    rcases h.tree.form (some i) with he | ⟨ss, ss', he, -⟩
    · rw [he]
    · rw [hform] at he
      cases he
  unfold Context.bodyReferences
  rw [hnodes, h.isLibrary, h.declaredReferences]
  split_ifs
  · exact .nil
  · have hmembers := Padded.flatMap fun c hc => h.memberReferences parameters (hmember c hc)
    have hdecorators := Padded.flatMap fun c hc => h.below false (hdecorator c hc)
    exact hmembers.append (((Padded.refl _).append hdecorators).shade _)

theorem declarePlain {statement : Slot} (kind : SymbolKind) {i : Nat} {form : Form}
    (hi : cx.tree.form? (some i) = some form)
    (hnode : some i ∈ cx.tree.declarationNodes statement)
    (hroots : cx.tree.textRoots statement i = [i]) (header : Header) :
    Option.Rel (cx.Reread E D statement) (cx.declarePlain kind i form.name header)
      (cx'.declarePlain kind i form.name header) := by
  unfold Context.declarePlain
  rw [← h.newSymbol?]
  cases hs : cx.newSymbol? kind (some i) form.name header with
  | none => exact .none
  | some s =>
    refine .some ⟨rfl, i, declaresAt_newSymbol? hi hnode hs, fun hd => ?_⟩
    rw [hroots, List.forall_mem_singleton] at hd
    exact h.plainReferences hd header

theorem declareVariable {statement : Slot} {header : Header} {ds : List Slot}
    (hform : cx.tree.form? statement = some (.variableStatement header ds)) {d : Slot}
    (hd : d ∈ ds) : Option.Rel (cx.Reread E D statement) (cx.declareVariable header d)
      (cx'.declareVariable header d) := by
  have hnode : d ∈ cx.tree.declarationNodes statement := by rwa [Tree.declarationNodes, hform]
  unfold Context.declareVariable
  rcases d with _ | i
  · exact .none
  rcases h.tree.form (some i) with he | ⟨ss, ss', he, he'⟩
  · rw [← he]
    cases hi : cx.tree.form? (some i) with
    | none => exact .none
    | some form =>
      exact h.declarePlain .variableSymbol hi hnode (by rw [Tree.textRoots, hform]) header
  · rw [he, he']
    exact .none

theorem declareClass {kind : ClassKind} {i : Nat} {parts : ClassParts}
    (hform : cx.tree.form? (some i) = some (.classLike kind parts)) :
    Option.Rel (cx.Reread E D (some i)) (cx.declareClass kind i parts)
      (cx'.declareClass kind i parts) := by
  have hnode : some i ∈ cx.tree.declarationNodes (some i) := by
    rw [Tree.declarationNodes, hform]
    exact List.mem_singleton_self _
  unfold Context.declareClass newClassInfo
  rw [← h.newSymbol?, h.tree.modifiers, h.parameterNames]
  cases hs : cx.newSymbol? (classSymbolKind kind) (some i) parts.name parts.header with
  | none => exact .none
  | some s =>
    have hplace : cx.tree.DeclaresAt (some i) i s.name s.span :=
      declaresAt_newSymbol? hform hnode hs
    refine .some ⟨rfl, i, hplace, fun hi => ?_⟩
    unfold Context.classReferences
    rw [h.heritageReferences, h.parameterNames]
    exact (Padded.refl _).append (h.bodyReferences hform hi _)

/-- **The same declarations are read**, with more references. -/
theorem declarations (statement : Slot) : List.Forall₂ (cx.Reread E D statement)
    (cx.declarations statement) (cx'.declarations statement) := by
  have one : ∀ {d d'}, Option.Rel (cx.Reread E D statement) d d' →
      List.Forall₂ (cx.Reread E D statement) d.toList d'.toList := by
    intro d d' hd
    cases hd with
    | none => exact .nil
    | some hd => exact .cons hd .nil
  unfold Context.declarations
  rcases statement with _ | i
  · exact .nil
  rcases h.tree.form (some i) with he | ⟨ss, ss', he, he'⟩
  · rw [← he]
    cases hform : cx.tree.form? (some i) with
    | none => exact .nil
    | some form =>
      have hplain : cx.tree.declarationNodes (some i) = [some i] →
          cx.tree.textRoots (some i) i = [i] → ∀ kind header,
            List.Forall₂ (cx.Reread E D (some i)) (cx.declarePlain kind i form.name header).toList
              (cx'.declarePlain kind i form.name header).toList := fun hnode hroots kind header =>
        one (h.declarePlain kind hform (hnode ▸ List.mem_singleton_self _) hroots header)
      cases form with
      | classLike kind parts => exact one (h.declareClass hform)
      | enumeration header name _ =>
        exact hplain (by rw [Tree.declarationNodes, hform]) (by rw [Tree.textRoots, hform])
          .enumeration header
      | function kind f =>
        cases kind with
        | declaration =>
          exact hplain (by rw [Tree.declarationNodes, hform]) (by rw [Tree.textRoots, hform])
            .function f.header
        | _ => exact .nil
      | typeAlias header name _ _ =>
        exact hplain (by rw [Tree.declarationNodes, hform]) (by rw [Tree.textRoots, hform])
          .typeAlias header
      | variableStatement header declarations =>
        have hsame : List.Forall₂ (fun d d' => d = d' ∧ d ∈ declarations) declarations
            declarations := List.forall₂_same.mpr fun d hd => ⟨rfl, hd⟩
        refine List.rel_filterMap (fun d d' hd => ?_) hsame
        rw [← hd.1]
        exact h.declareVariable hform hd.2
      | _ => exact .nil
  · rw [he, he']
    exact .nil

end ReadsMore

variable {cx} in
/-- **Where the same references are read**, the declarations are the same. -/
theorem ReadsMore.declarations_eq {cx' : Context} {E : String → Prop} {D : Nat → Prop}
    (h : cx.ReadsMore E D cx') (hE : ∀ n, ¬E n) (hD : ∀ i, D i) :
    cx.declarations = cx'.declarations := by
  funext statement
  rw [← List.forall₂_eq_eq_eq]
  apply (h.declarations statement).imp
  intro d d' hd
  obtain ⟨i, -, hreferences⟩ := hd.references
  exact Prod.ext hd.symbol ((hreferences fun root _ => hD root).eq hE)

/-- Contexts of one unit in which the same names are known, whatever they mean. -/
structure Alike (cx cx' : Context) : Prop where
  tree : cx.tree = cx'.tree
  options : cx.options = cx'.options
  uri : cx.scope.uri = cx'.scope.uri
  path : cx.scope.path = cx'.scope.path
  kind : cx.scope.kind = cx'.scope.kind
  hasLocal : ∀ n, cx.scope.hasLocal n = cx'.scope.hasLocal n
  hasImport : ∀ n, cx.scope.hasImport n = cx'.scope.hasImport n
  holder : ∀ n, cx.store.names.byShortName? n = cx'.store.names.byShortName? n
  holderName : ∀ n, (cx.store.byShortName? n).map Symbol.qualified =
    (cx'.store.byShortName? n).map Symbol.qualified

theorem Alike.refl (cx : Context) : cx.Alike cx :=
  ⟨rfl, rfl, rfl, rfl, rfl, fun _ => rfl, fun _ => rfl, fun _ => rfl, fun _ => rfl⟩

section Alike

variable {cx} {cx' : Context} (h : cx.Alike cx')

include h

theorem Alike.isLibrary : cx.scope.isLibrary = cx'.scope.isLibrary := by
  rw [Scope.isLibrary, h.kind, Scope.isLibrary]

theorem Alike.accessReference : cx.accessReference = cx'.accessReference := by
  funext object member strong
  unfold Context.accessReference knownMember?
  rw [h.tree]
  simp only [h.holderName, h.hasLocal, h.hasImport]

theorem Alike.identifierReference : cx.identifierReference = cx'.identifierReference := by
  funext i text strong
  unfold Context.identifierReference isInAccess isKnown
  rw [h.tree]
  simp only [h.holder, h.hasLocal, h.hasImport]

theorem Alike.readsMore : cx.ReadsMore (fun _ => False) (fun _ => True) cx' :=
  ⟨h.tree ▸ .refl _, h.options, h.uri, h.path, h.kind, fun _ => by rw [h.tree],
    fun _ _ _ => trivial, fun _ _ _ _ _ _ _ _ => by rw [h.accessReference]; exact .refl _,
    fun _ _ _ _ _ _ _ => by rw [h.identifierReference]; exact .refl _⟩

theorem Alike.parameterNames : cx.parameterNames = cx'.parameterNames := h.readsMore.parameterNames

/-- **Contexts that know the same names read the same declarations.** -/
theorem Alike.declarations : cx.declarations = cx'.declarations :=
  h.readsMore.declarations_eq (fun _ => id) fun _ => trivial

end Alike

variable {cx} in
/-- What is bound is declared at a node of its statement. -/
theorem exists_declaresAt_of_mem_bind {statement : Slot} {b : Bound}
    (h : b ∈ (cx.bind statement).1) :
    ∃ i, cx.tree.DeclaresAt statement i b.symbol.name b.symbol.span := by
  obtain ⟨d, hd, hb⟩ := exists_of_mem_bind h
  obtain ⟨k, hk, rfl⟩ := List.mem_iff_getElem.mp hd
  have hread := ((Alike.refl cx).readsMore.declarations statement).get hk hk
  obtain ⟨i, hi, -⟩ := hread.references
  refine ⟨i, ?_⟩
  rw [Symbol.name_of_bare hb.bare, Symbol.span_of_bare hb.bare]
  exact hi

end Bindery.Context
