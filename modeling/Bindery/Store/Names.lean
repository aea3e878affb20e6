import Bindery.Table
import Bindery.Store.Arena

/-!
# Names of symbols

The tables through which symbols are found by name. A qualified name belongs to the symbol that was
registered last. A short name does too, but those that held it before are remembered: when the
holder goes, the name falls back to the one before it.

* `NameTable.register`, `NameTable.unregister`: changes.
* `NameTable.byShortName?`, `NameTable.byQualifiedName?`: look-ups.
* `NameTable.holders`: everyone who lays claim to a short name, the present holder first.
-/

namespace Bindery

/-- Symbols by short and by qualified name. -/
structure NameTable where
  /-- The holder of each short name. -/
  short : Table SymbolId := {}
  /-- Those that held a short name before, the latest first. -/
  shadowed : Table (List SymbolId) := {}
  qualified : Table SymbolId := {}

namespace NameTable

instance : Inhabited NameTable := ⟨{}⟩

/-- Those that held a short name before, the latest first. -/
def earlier (t : NameTable) (name : String) : List SymbolId := (t.shadowed.get? name).getD []

/-- Everyone who lays claim to a short name: its holder, then those that held it before. -/
def holders (t : NameTable) (name : String) : List SymbolId :=
  (t.short.get? name).toList ++ t.earlier name

/-- Give a short name to `id`. Someone else who held it is remembered and told. -/
def registerShort (t : NameTable) (name : String) (id : SymbolId) :
    NameTable × Option SymbolId :=
  let taken := { t with short := t.short.insert name id }
  match t.short.get? name with
  | none => (taken, none)
  | some previous =>
    if previous = id then (taken, none)
    else
      let before := previous :: (t.earlier name).filter (· ≠ id)
      ({ taken with shadowed := t.shadowed.insert name before }, some previous)

/-- Give `id` its qualified name and, if asked, its short one. Tells who held the short name. -/
def register (t : NameTable) (name qualified : String) (id : SymbolId) (withShort : Bool) :
    NameTable × Option SymbolId :=
  let t := { t with qualified := t.qualified.insert qualified id }
  if withShort then t.registerShort name id else (t, none)

/-- Remember these former holders of a short name. -/
def setEarlier (t : NameTable) (name : String) (ids : List SymbolId) : NameTable :=
  { t with
    shadowed := if ids.isEmpty then t.shadowed.erase name else t.shadowed.insert name ids }

/-- Take a short name from `id`: from its holder, who is followed by the one before, or from the
list of former holders. -/
def unregisterShort (t : NameTable) (name : String) (id : SymbolId) : NameTable :=
  if t.short.get? name = some id then
    match t.earlier name with
    | [] => { t with short := t.short.erase name }.setEarlier name []
    | restored :: rest => { t with short := t.short.insert name restored }.setEarlier name rest
  else t.setEarlier name ((t.earlier name).filter (· ≠ id))

/-- Take from `id` the names that it still has. -/
def unregister (t : NameTable) (name qualified : String) (id : SymbolId) : NameTable :=
  let t := t.unregisterShort name id
  if t.qualified.get? qualified = some id then { t with qualified := t.qualified.erase qualified }
  else t

/-! ## Look-ups -/

/-- The symbol that holds a short name. -/
def byShortName? (t : NameTable) (name : String) : Option SymbolId := t.short.get? name

/-- The first segment of a dotted name. -/
def rootSegment (name : String) : String := String.ofList (name.toList.takeWhile (· ≠ '.'))

/-- The symbol with a qualified name; failing that, the one whose name is `name` below the outermost
namespace of `relativeTo`. -/
def byQualifiedName? (t : NameTable) (name : String) (relativeTo : Option String) :
    Option SymbolId :=
  (t.qualified.get? name).or
    (relativeTo.bind fun r => t.qualified.get? (rootSegment r ++ "." ++ name))

end NameTable

end Bindery
