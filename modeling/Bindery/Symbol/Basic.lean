import Bindery.Decorator
import Bindery.Scope.Basic
import Bindery.Symbol.ClassInfo

/-!
# Symbols

A `Symbol` is what the binder knows of one top-level declaration: where it stands, what it is, the
names it refers to with the places to replace, and the declarations it depends on.

* `Dependency`, `Mentions`: a dependency, and the places of one name.
* `Symbol.settle`: a waiting import of a symbol has been found.
-/

namespace Bindery

/-- What a symbol declares. -/
inductive SymbolKind where
  | classSymbol
  | interfaceSymbol
  | enumeration
  | function
  | variableSymbol
  | typeAlias
  deriving DecidableEq, Repr, Inhabited

/-- Where the target of a dependency comes from. -/
inductive Origin where
  /-- Declared in the same unit. -/
  | sameUnit
  /-- Declared in another unit of the same build. -/
  | otherUnit (source : String)
  /-- Exported by a bundled package. -/
  | package
  /-- Taken to be there at run time, or outside of the build. -/
  | ambient
  deriving DecidableEq, Repr

/-- A dependency of a symbol. -/
structure Dependency where
  target : String
  origin : Origin
  /-- The target has to be there when the symbol is defined. -/
  strong : Bool
  deriving DecidableEq, Repr

/-- The places where a symbol refers to one name, and what to write there instead. -/
structure Mentions where
  replacement : Option String := none
  locations : Roster Span := {}

instance : Inhabited Mentions := ⟨{}⟩

/-- A bound top-level declaration. -/
structure Symbol where
  name : String
  path : List String
  qualified : String
  uri : String
  kind : SymbolKind
  span : Span
  nameSpan : Span
  /-- The source text of the declaration. -/
  content : String
  decorators : List Decorator
  isExported : Bool
  docs : List String
  /-- The places to replace, by the name that stands there. -/
  table : Table Mentions := {}
  edges : List Dependency := []
  /-- The names classified so far, with the targets they were resolved to. -/
  loaded : Table (Option String) := {}
  /-- The names that never become dependencies. -/
  ignored : List String := []
  classInfo : Option ClassInfo := none

namespace Symbol

/-- The outermost segment of the namespace, or the name itself. -/
def outermostName (s : Symbol) : String := s.path.head?.getD s.name

/-- A class or an interface. -/
def isClassOrInterface (s : Symbol) : Bool := s.classInfo.isSome

/-- The places of a name. -/
def mentions? (s : Symbol) (name : String) : Option Mentions := s.table.get? name

/-- The dependencies that have to be there first. -/
def strongEdges (s : Symbol) : List Dependency := s.edges.filter (·.strong)

/-- Change what a class declares; other symbols stay as they are. -/
def updateClass (s : Symbol) (f : ClassInfo → ClassInfo) : Symbol :=
  { s with classInfo := s.classInfo.map f }

/-- Write `replacement` wherever `name` stands, if it stands anywhere. -/
def setReplacement (s : Symbol) (name replacement : String) : Symbol :=
  { s with table := s.table.modify name fun e => { e with replacement := some replacement } }

/-- Depend on a target, unless it is the symbol itself or has been a dependency before. -/
def addEdge (s : Symbol) (e : Dependency) : Symbol :=
  if e.target = s.qualified ∨ e.target ∈ s.edges.map (·.target) then s
  else { s with edges := s.edges ++ [e] }

/-! ## Late imports -/

/-- The base class waited for has been found. -/
def completeBase (name target : String) (c : ClassInfo) : ClassInfo :=
  if c.awaitedBase = some name then { c with awaitedBase := none, base := some target } else c

/-- A name that waited for the unit `source` has been found to mean `target`. -/
def settle (s : Symbol) (name target source : String) (r : WaitingReference) : Symbol :=
  let s := s.setReplacement name target
  let s := { s with loaded := s.loaded.insert name (some target) }
  (s.updateClass (completeBase name target)).addEdge ⟨target, .otherUnit source, r.strong⟩

/-- A reference that waits has an entry in the table, if it stands at a place to replace. -/
def hasEntryFor (s : Symbol) (name : String) (r : WaitingReference) : Bool :=
  s.table.contains name || !r.placed

/-! ## Laws -/

@[simp] theorem keys_table_setReplacement (s : Symbol) (name replacement : String) :
    (s.setReplacement name replacement).table.keys = s.table.keys := by
  simp [setReplacement]

end Symbol

end Bindery
