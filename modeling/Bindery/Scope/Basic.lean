import Bindery.Table
import Bindery.Scope.Builtins
import Bindery.Store.Arena

/-!
# Scopes

What the names of one unit mean: names declared in the unit, names imported from other units,
imports still waiting for their unit, names of bundled packages, and built-in names.

* `Scope`: the tables; `Scope.addLocal`, `Scope.addImport`, … fill them.
* `Scope.meaning`: what a name stands for, by fixed priority.
* `Scope.completeImport?`: a waiting import that has been found.
-/

namespace Bindery

/-- What a unit is bound for. -/
inductive UnitKind where
  | source
  /-- Only declarations: nothing in the unit is looked up, and its short names stay private. -/
  | library
  deriving DecidableEq, Repr, Inhabited

/-- An imported name. -/
structure ImportedName where
  target : String
  /-- The unit that declares the target. -/
  source : String
  deriving DecidableEq, Repr, Inhabited

/-- A reference that waits for an import. -/
structure WaitingReference where
  symbol : SymbolId
  strong : Bool
  /-- The reference stands at a place that will be replaced. -/
  placed : Bool
  deriving DecidableEq, Repr, Inhabited

/-- An import whose unit has not been bound yet, and the references that wait for it. -/
structure WaitingImport where
  source : String
  queue : List WaitingReference := []
  deriving DecidableEq, Repr, Inhabited

/-- The names of one unit. -/
structure Scope where
  uri : String
  /-- The namespace that the declarations of the unit belong to. -/
  path : List String
  kind : UnitKind := .source
  locals : Table String := {}
  imports : Table ImportedName := {}
  waiting : Table WaitingImport := {}
  packages : Table String := {}
  builtins : Builtins := Builtins.standard

/-- What a name stands for in a scope. -/
inductive Meaning where
  /-- A dotted name stands for itself. -/
  | qualified
  | sameUnit (target : String)
  | imported (binding : ImportedName)
  /-- The import has not been found yet. -/
  | waiting (source : String)
  | package (uri : String)
  /-- Nothing declares the name; it is taken to be there at run time. -/
  | ambient
  deriving DecidableEq, Repr

namespace Scope

instance : Inhabited Scope := ⟨{ uri := "", path := [] }⟩

/-! ## Filling a scope -/

/-- Declare a short name in this unit. -/
def addLocal (s : Scope) (name qualified : String) : Scope :=
  { s with locals := s.locals.insert name qualified }

/-- Import a name from another unit. -/
def addImport (s : Scope) (name target source : String) : Scope :=
  { s with imports := s.imports.insert name ⟨target, source⟩ }

/-- Import a name from a unit that has not been bound yet. Nothing waits for it so far. -/
def addWaiting (s : Scope) (name source : String) : Scope :=
  { s with waiting := s.waiting.insert name { source := source } }

/-- Import a name from a package. -/
def addPackage (s : Scope) (name uri : String) : Scope :=
  { s with packages := s.packages.insert name uri }

/-! ## Questions -/

/-- The unit holds declarations only. -/
def isLibrary (s : Scope) : Bool := s.kind = .library

/-- The qualified name of a declaration of this unit. -/
def qualify (s : Scope) (name : String) : String := ".".intercalate (s.path ++ [name])

/-- Whether the unit declares a name. -/
def hasLocal (s : Scope) (name : String) : Bool := s.locals.contains name

/-- Whether an import of any kind brings a name in. -/
def hasImport (s : Scope) (name : String) : Bool :=
  s.imports.contains name || s.waiting.contains name || s.packages.contains name

/-- Whether the built-in set holds a name. -/
def isBuiltin (s : Scope) (name : String) : Bool := name ∈ s.builtins

/-- The names that wait for a unit, in the order in which they were added. -/
def waitingFor (s : Scope) (source : String) : List String :=
  (s.waiting.entries.filter fun e => e.2.source = source).map Prod.fst

/-- A dot makes a name qualified. -/
def isQualified (name : String) : Bool := name.toList.contains '.'

/-- What a name stands for. Of several bindings the first counts, in the order: local declaration,
import, waiting import, package. -/
def meaning (s : Scope) (name : String) : Meaning :=
  if isQualified name then .qualified
  else match s.locals.get? name with
    | some target => .sameUnit target
    | none => match s.imports.get? name with
      | some binding => .imported binding
      | none => match s.waiting.get? name with
        | some p => .waiting p.source
        | none => match s.packages.get? name with
          | some uri => .package uri
          | none => .ambient

/-! ## Waiting references -/

/-- Let a reference wait for an import. Nothing happens if the import is not waiting itself. -/
def await (s : Scope) (name : String) (r : WaitingReference) : Scope :=
  { s with waiting := s.waiting.modify name fun p => { p with queue := p.queue ++ [r] } }

/-- Turn a waiting import into a found one, and hand out what waited for it. -/
def completeImport? (s : Scope) (name target : String) : Option (Scope × WaitingImport) :=
  (s.waiting.get? name).map fun p =>
    ({ s with waiting := s.waiting.erase name }.addImport name target p.source, p)

/-- Keep the waiting references whose symbols are still there. -/
def dropStale (s : Scope) (alive : SymbolId → Bool) : Scope :=
  { s with
    waiting := s.waiting.mapValues fun _ p =>
      { p with queue := p.queue.filter fun r => alive r.symbol } }

end Scope

end Bindery
