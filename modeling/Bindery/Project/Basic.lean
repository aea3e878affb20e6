import Bindery.Binding.Declaration
import Bindery.Graph.Imports

/-!
# Projects

Everything that one build shares between its units: the symbols and their names, the scope of every
bound unit, and the graph of imports between units. Binding a unit again replaces its last version.

* `Project.bind`: the declarations of a unit become symbols.
* `Project.supplyImport`: a waiting import has been found.
* `Project.unload`: a unit goes, with its symbols.
-/

namespace Bindery

/-- A unit as it was bound. -/
structure BoundUnit where
  scope : Scope
  /-- The symbols that the unit declares, in order. -/
  symbols : List SymbolId

instance : Inhabited BoundUnit := ⟨⟨default, []⟩⟩

/-- The state of one build. -/
structure Project where
  options : Options
  /-- The names that are built in for every unit. -/
  builtins : Builtins
  store : Store := {}
  /-- The bound units by uri, the one bound last at the end. -/
  units : Table BoundUnit := {}
  graph : ImportGraph := {}

namespace Project

/-- A project without units. -/
def empty (options : Options) : Project := { options, builtins := options.allBuiltins }

instance : Inhabited Project := ⟨empty {}⟩

/-- The symbol of an id. -/
def symbol? (p : Project) (id : SymbolId) : Option Symbol := p.store.symbol? id

/-- The symbols of a unit. -/
def idsIn (p : Project) (uri : String) : List SymbolId :=
  ((p.units.get? uri).map BoundUnit.symbols).getD []

/-! ## Unloading -/

/-- Keep the waiting references of a unit whose symbols are still there. -/
def BoundUnit.retain (store : Store) (u : BoundUnit) : BoundUnit :=
  { u with scope := u.scope.dropStale store.symbols.contains }

/-- Take a unit out: its symbols, their names, its imports, and every reference of its symbols that
waits. Tells whether the unit was there. -/
def unload (p : Project) (uri : String) : Project × Bool :=
  match p.units.get? uri with
  | none => (p, false)
  | some unit =>
    let store := unit.symbols.foldl Store.dismiss p.store
    ({ p with
        store
        units := (p.units.erase uri).mapValues fun _ u => BoundUnit.retain store u
        graph := p.graph.forget uri }, true)

/-! ## Late imports -/

/-- The parent of a class whose base has been found, unless it has one already. -/
def adoptParent (target : String) (parent : Option SymbolId) (c : ClassInfo) : ClassInfo :=
  if c.base = some target ∧ c.parent = none then { c with parent := parent } else c

/-- The state of a late import: the symbols, how many references are done, what is wrong. -/
structure Completion where
  store : Store
  completed : Nat := 0
  diagnostics : List Diagnostic := []

/-- One reference that has waited for `name`, which means `target` of the unit `source`. A reference
whose symbol is gone is passed over. -/
def complete (name target source : String) (parent : Option SymbolId) (c : Completion)
    (r : WaitingReference) : Completion :=
  match c.store.symbol? r.symbol with
  | none => c
  | some symbol =>
    let update (s : Symbol) : Symbol :=
      (s.settle name target source r).updateClass (adoptParent target parent)
    let lost := if symbol.hasEntryFor name r then []
      else [Diagnostic.ofProblem symbol.uri ⟨0, 0⟩ (.missingEntry name symbol.qualified)]
    { store := { c.store with symbols := c.store.symbols.modify r.symbol update }
      completed := c.completed + 1
      diagnostics := c.diagnostics ++ lost }

/-- The import `name` of a unit has been found to mean `target`. Tells how many references had
waited for it; none if the import was not waiting. -/
def supplyImport (p : Project) (uri name target : String) : Project × Nat × List Diagnostic :=
  match p.units.get? uri with
  | none => (p, 0, [])
  | some unit =>
    match unit.scope.completeImport? name target with
    | none => (p, 0, [])
    | some (scope, waiting) =>
      let parent := (p.store.names.byQualifiedName? target none).filter p.store.isClassOrInterface
      let c := waiting.queue.foldl (complete name target waiting.source parent)
        { store := p.store }
      ({ p with
          store := c.store
          units := p.units.insert uri { unit with scope }
          graph := if 0 < c.completed then p.graph.addImport uri waiting.source else p.graph },
        c.completed, c.diagnostics)

/-- The qualified name of the first symbol of a unit that has a short name. -/
def exportedName? (p : Project) (uri name : String) : Option String :=
  (((p.idsIn uri).filterMap p.symbol?).find? (·.name = name)).map Symbol.qualified

/-- An import that waits, in a unit, and the name it turns out to have. -/
structure Found where
  uri : String
  name : String
  target : String

/-- The waiting imports that can be found now that `uri` has been bound: those of `uri`, and those
of other units from `uri`. -/
def findable (p : Project) (uri : String) : List Found :=
  p.units.entries.flatMap fun (unitUri, unit) =>
    unit.scope.waiting.entries.filterMap fun (name, waiting) =>
      if unitUri = uri ∨ waiting.source = uri then
        (p.exportedName? waiting.source name).map fun target => ⟨unitUri, name, target⟩
      else none

/-- Resolve waiting imports in turn. -/
def resolveFound (p : Project) (work : List Found) : Project × List Diagnostic :=
  work.foldl (fun (state : Project × List Diagnostic) f =>
    let (p, _, ds) := state.1.supplyImport f.uri f.name f.target
    (p, state.2 ++ ds)) (p, [])

/-! ## Binding -/

/-- A unit that is being bound. -/
structure Session where
  store : Store
  scope : Scope
  ids : List SymbolId := []
  diagnostics : List Diagnostic := []

/-- Take a bound symbol in. A symbol that loses its short name to it is reported. -/
def Session.take (s : Session) (b : Bound) : Session :=
  let (store, id, previous) := s.store.enroll b.symbol (!s.scope.isLibrary)
  let shadowed := ((previous.bind store.symbol?).map fun earlier =>
    Diagnostic.ofProblem s.scope.uri b.symbol.nameSpan
      (.duplicateShortName b.symbol.name earlier.qualified b.symbol.qualified)).toList
  { store
    scope := b.deferred.foldl (fun scope d =>
      scope.await d.name ⟨id, d.strong, d.placed⟩) s.scope
    ids := s.ids ++ [id]
    diagnostics := s.diagnostics ++ shadowed }

/-- Bind one statement. -/
def Session.bindStatement (tree : Tree) (options : Options) (s : Session) (statement : Slot) :
    Session :=
  let cx : Context := { tree, scope := s.scope, store := s.store, options }
  let (bound, ds) := cx.bind statement
  bound.foldl Session.take { s with diagnostics := s.diagnostics ++ ds }

/-- Declare the short names of a unit in its scope, so that the order of its declarations does not
matter. -/
def declareAll (tree : Tree) (scope : Scope) : Scope :=
  (tree.statements.flatMap tree.declaredNames).foldl
    (fun s name => s.addLocal name (s.qualify name)) scope

/-- The units that the symbols of a session depend on. -/
def Session.imported (s : Session) : List String :=
  (s.ids.filterMap s.store.symbol?).flatMap fun symbol =>
    symbol.edges.filterMap fun e =>
      match e.origin with
      | .otherUnit source => some source
      | _ => none

/-- The scope in which the declarations of a unit are bound. -/
def unitScope (p : Project) (tree : Tree) (scope : Scope) : Scope :=
  declareAll tree { scope with builtins := p.builtins }

/-- Bind the declarations of a unit, in place of its last version. Waiting imports that the unit
answers, and those of its own that others answer, are resolved. Tells the new symbols in order. -/
def bind (p : Project) (tree : Tree) (scope : Scope) :
    Project × List SymbolId × List Diagnostic :=
  let p := (p.unload scope.uri).1
  let start : Session := { store := p.store, scope := p.unitScope tree scope }
  let s := tree.statements.foldl (Session.bindStatement tree p.options) start
  let p := { p with
    store := s.store
    units := p.units.insert scope.uri ⟨s.scope, s.ids⟩
    graph := p.graph.replaceImports scope.uri s.imported }
  let (p, ds) := p.resolveFound (p.findable scope.uri)
  (p, s.ids, s.diagnostics ++ ds)

/-! ## Laws -/

/-- A unit that is not there is not unloaded. -/
theorem unload_of_get?_eq_none {p : Project} {uri : String} (h : p.units.get? uri = none) :
    p.unload uri = (p, false) := by
  simp [unload, h]

/-- An import that is not waiting is not resolved. -/
theorem supplyImport_of_not_waiting {p : Project} {uri name target : String} {u : BoundUnit}
    (h : p.units.get? uri = some u) (hn : u.scope.waiting.get? name = none) :
    p.supplyImport uri name target = (p, 0, []) := by
  simp [supplyImport, h, Scope.completeImport?, hn]

end Project

end Bindery
