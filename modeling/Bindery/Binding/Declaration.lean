import Bindery.Binding.Member
import Bindery.Text.Edit

/-!
# Binding declarations

From a top-level statement to the symbols it declares.

* `Context.plainReferences`, `Context.bodyReferences`: what a declaration refers to, in order.
* `Context.inherit`: the heritage clauses of a class.
* `Context.collisions`: places to replace that lie inside one another.
* `Context.bind`: the symbols of a statement.
-/

namespace Bindery

/-- A symbol that has been bound, and the references that wait for imports. -/
structure Bound where
  symbol : Symbol
  deferred : List Deferral

namespace Context

variable (cx : Context)

/-! ## New symbols -/

/-- A symbol of which nothing but its own declaration is known. None if it has no plain name. -/
def newSymbol? (kind : SymbolKind) (i name : Slot) (header : Header) : Option Symbol := do
  let text ← cx.tree.identifier? name
  let span ← cx.tree.span? i
  return {
    name := text
    path := cx.scope.path
    qualified := cx.scope.qualify text
    uri := cx.scope.uri
    kind
    span
    nameSpan := (cx.tree.span? name).getD span
    content := cx.tree.text i
    decorators := Decorator.ofHeader cx.tree header
    isExported := .exported ∈ header.modifiers.filterMap cx.tree.modifier?
    docs := header.docs
    ignored := cx.options.ignored }

/-! ## Collisions -/

/-- The places that will be replaced, each with what it belongs to. -/
def owners (s : Symbol) : List (Span × String) :=
  (s.table.entries.filter fun e => e.2.replacement.isSome).flatMap
      (fun e => e.2.locations.toList.map fun l => (l, e.1)) ++
    ((s.classInfo.map fun c => c.modifierChanges.values.map fun t => (t.span, t.replacement)).getD
      [])

/-- What the first place with this span belongs to. -/
def ownerOf (owners : List (Span × String)) (s : Span) : String :=
  ((owners.find? (·.1 = s)).map Prod.snd).getD ""

/-- A report for each place that is in the way of another. -/
def collisions (s : Symbol) : List Diagnostic :=
  let owners := owners s
  (overlaps (owners.map Prod.fst)).map fun (first, second) =>
    cx.diagnose second (.locationCollision (ownerOf owners second) (ownerOf owners first))

/-- The finished symbol, with a report on its collisions. -/
def finish (d : Draft) : Bound × List Diagnostic := (⟨d.symbol, d.deferred⟩, cx.collisions d.symbol)

/-! ## Plain declarations -/

/-- The type parameters of a function or type alias. -/
def ownTypeParameters (i : Slot) : List String :=
  match cx.tree.form? i with
  | some (.function .declaration f) => cx.parameterNames f.typeParameters
  | some (.typeAlias _ _ typeParameters _) => cx.parameterNames typeParameters
  | _ => []

/-- What a declaration without members refers to: what its decorators declare, then its text. In a
library nothing is looked up. -/
def plainReferences (i : Nat) (header : Header) : List Reference :=
  if cx.scope.isLibrary then []
  else shade (cx.ownTypeParameters (some i)) (cx.declaredReferences header ++ cx.below false i)

/-- Bind a declaration without members. -/
def bindPlain (kind : SymbolKind) (i : Nat) (name : Slot) (header : Header) :
    Option (Bound × List Diagnostic) :=
  (cx.newSymbol? kind (some i) name header).map fun symbol =>
    cx.finish (Draft.resolveAll cx { symbol } (cx.plainReferences i header))

/-! ## Heritage -/

/-- A class whose heritage clauses are being read. -/
structure Lineage where
  draft : Draft
  /-- The number of types read so far in `extends` clauses. -/
  seen : Nat := 0
  diagnostics : List Diagnostic := []

/-- Set the base class: its name, the symbol if it is known, and the short name if it waits. -/
def setBase (draft : Draft) (shape : TypeShape) (target : Option String) : Draft :=
  let parent := target.bind fun t =>
    (cx.store.names.byQualifiedName? t (some draft.symbol.qualified)).filter
      cx.store.isClassOrInterface
  let waiting := (shape.word?.map TypeWord.value).filter fun name =>
    target.isNone && cx.scope.waiting.contains name
  { draft with
    symbol := draft.symbol.updateClass fun c =>
      { c with base := target, parent := parent, awaitedBase := waiting } }

/-- One type of an `extends` clause. The first is the base. Further ones are kept for an interface;
of a class they are left out, and the second is reported. -/
def extend (clause : Slot) (shape : TypeShape) (target : Option String) (l : Lineage) : Lineage :=
  let symbol := l.draft.symbol
  let l := { l with seen := l.seen + 1 }
  if l.seen = 1 then { l with draft := cx.setBase l.draft shape target }
  else if symbol.kind = .interfaceSymbol then
    match target with
    | some t =>
      { l with
        draft.symbol := symbol.updateClass fun c => { c with extraBases := c.extraBases.insert t } }
    | none => l
  else if l.seen = 2 then
    let used := (symbol.classInfo.bind ClassInfo.base).getD ""
    let span := (cx.tree.span? clause).getD symbol.nameSpan
    { l with diagnostics := l.diagnostics ++ [cx.diagnose span (.multipleBases used)] }
  else l

/-- One type of an `implements` clause. -/
def implement (target : Option String) (l : Lineage) : Lineage :=
  match target with
  | some t =>
    { l with
      draft.symbol := l.draft.symbol.updateClass fun c =>
        { c with interfaces := c.interfaces.insert t } }
  | none => l

/-- The target of a type in a clause: the first that its names lead to. All of them are needed when
the class is defined. In a library only the name of the type itself is looked at. -/
def heritageTarget (hidden : List String) (shape : TypeShape) (d : Draft) :
    Draft × Option String :=
  if cx.scope.isLibrary then (d, shape.word?.map fun w => cx.likelyTarget w.value)
  else
    d.resolveFirst cx (shape.references.map fun w =>
      { name := w.value, span := some w.nameSpan, strong := true, hidden })

/-- One type of a heritage clause; what is no type is passed over. -/
def inheritType (hidden : List String) (kind : HeritageKind) (clause : Slot) (l : Lineage)
    (type : Slot) : Lineage :=
  match TypeShape.ofNode? cx.tree type with
  | none => l
  | some shape =>
    let (draft, target) := cx.heritageTarget hidden shape l.draft
    let l := { l with draft }
    match kind with
    | .extending => cx.extend clause shape target l
    | .implementing => implement target l

/-- One heritage clause. -/
def inheritClause (hidden : List String) (l : Lineage) (clause : Slot) : Lineage :=
  match cx.tree.form? clause with
  | some (.heritage kind types) => types.foldl (cx.inheritType hidden kind clause) l
  | _ => l

/-- The heritage clauses of a class, in order. -/
def inherit (hidden : List String) (symbol : Symbol) (clauses : List Slot) : Lineage :=
  clauses.foldl (cx.inheritClause hidden) { draft := { symbol } }

/-! ## Classes -/

/-- The children of a class that are read as members: all but its clauses and decorators. -/
def memberNodes (i : Nat) (parts : ClassParts) : List Nat :=
  (cx.tree.children (some i)).filter fun c =>
    some c ∉ parts.heritage ∧ some c ∉ parts.header.decorators

/-- What the body of a class refers to: its members in order, what its decorators declare, then
their text. -/
def bodyReferences (i : Nat) (parts : ClassParts) (parameters : List String) : List Reference :=
  if cx.scope.isLibrary then []
  else
    (cx.memberNodes i parts).flatMap (cx.memberReferences parameters) ++
      shade parameters (cx.declaredReferences parts.header ++
        (parts.header.decorators.filterMap id).flatMap (cx.below false))

/-- The data of a class before its clauses and members are read. -/
def newClassInfo (kind : ClassKind) (i : Nat) (parameters : List String) (symbol : Symbol) :
    ClassInfo :=
  { isInterface := kind = .interfaceDeclaration
    isAbstract := .abstract ∈ cx.tree.modifiers (some i)
    typeParameters := parameters
    convertible := Decorator.convertibleName? symbol.decorators }

/-- The kind of symbol that a class or interface declares. -/
def classSymbolKind : ClassKind → SymbolKind
  | .classDeclaration => .classSymbol
  | .interfaceDeclaration => .interfaceSymbol

/-- Bind a class or interface. -/
def bindClass (kind : ClassKind) (i : Nat) (parts : ClassParts) :
    Option (Bound × List Diagnostic) :=
  (cx.newSymbol? (classSymbolKind kind) (some i) parts.name parts.header).map fun symbol =>
    let parameters := cx.parameterNames parts.typeParameters
    let data := cx.newClassInfo kind i parameters symbol
    let l := cx.inherit parameters { symbol with classInfo := some data } parts.heritage
    let (data, missing) := cx.recordMembers (l.draft.symbol.classInfo.getD data)
      (cx.memberNodes i parts)
    let draft := { l.draft with symbol.classInfo := some data }
    let (bound, colliding) :=
      cx.finish (draft.resolveAll cx (cx.bodyReferences i parts parameters))
    (bound, l.diagnostics ++ missing ++ colliding)

/-! ## Statements -/

/-- The results of several declarations, in order. -/
def gather (results : List (Option (Bound × List Diagnostic))) : List Bound × List Diagnostic :=
  let found := results.filterMap id
  (found.map Prod.fst, found.flatMap Prod.snd)

/-- One declaration of a variable statement. -/
def bindVariable (header : Header) (d : Slot) : Option (Bound × List Diagnostic) := do
  let form ← cx.tree.form? d
  cx.bindPlain .variableSymbol (← d) form.name header

/-- The symbols that a top-level statement declares, with what is wrong about them. Statements that
declare nothing have none. -/
def bind (statement : Slot) : List Bound × List Diagnostic :=
  match statement, cx.tree.form? statement with
  | some i, some form =>
    match form with
    | .classLike kind parts => gather [cx.bindClass kind i parts]
    | .enumeration header name _ => gather [cx.bindPlain .enumeration i name header]
    | .function .declaration f => gather [cx.bindPlain .function i f.name f.header]
    | .typeAlias header name _ _ => gather [cx.bindPlain .typeAlias i name header]
    | .variableStatement header declarations =>
      gather (declarations.map (cx.bindVariable header))
    | _ => ([], [])
  | _, _ => ([], [])

end Context

end Bindery
