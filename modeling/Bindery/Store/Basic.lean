import Bindery.Store.Names
import Bindery.Symbol.Basic

/-!
# The symbol store

The symbols of one build, under ids, with the tables that find them by name.

* `Store.enroll`: a new symbol gets an id and its names.
* `Store.dismiss`: a symbol goes, and its names with it.
-/

namespace Bindery

/-- Symbols and their names. -/
structure Store where
  symbols : Arena Symbol := {}
  names : NameTable := {}

namespace Store

instance : Inhabited Store := ⟨{}⟩

/-- The symbol of an id. -/
def symbol? (s : Store) (id : SymbolId) : Option Symbol := s.symbols.get? id

/-- The symbol that holds a short name. -/
def byShortName? (s : Store) (name : String) : Option Symbol :=
  (s.names.byShortName? name).bind s.symbol?

/-- Whether an id is that of a class or interface. -/
def isClassOrInterface (s : Store) (id : SymbolId) : Bool :=
  (s.symbol? id).any Symbol.isClassOrInterface

/-- Take a symbol in. Tells its id, and who held its short name. -/
def enroll (s : Store) (symbol : Symbol) (withShort : Bool) :
    Store × SymbolId × Option SymbolId :=
  let (symbols, id) := s.symbols.insert symbol
  let (names, previous) := s.names.register symbol.name symbol.qualified id withShort
  (⟨symbols, names⟩, id, previous)

/-- Take the symbol of an id out, if the id is still in use. -/
def dismiss (s : Store) (id : SymbolId) : Store :=
  match s.symbols.remove id with
  | (_, none) => s
  | (symbols, some symbol) =>
    ⟨symbols, s.names.unregister symbol.name symbol.qualified id⟩

end Store

end Bindery
