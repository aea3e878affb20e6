import Bindery.Table
import Bindery.Text.Order
import Bindery.Graph.Closure

/-!
# The graph of units

Which unit refers to declarations of which other unit, in both directions. When a unit changes,
every unit that refers to it, directly or through others, is affected.

* `ImportGraph.addImport`, `ImportGraph.replaceImports`, `ImportGraph.forget`: changes.
* `ImportGraph.affected`: the units to bind again when one changes.
-/

namespace Bindery

/-- Imports between units. A unit is listed only while it has an import or an importer. -/
structure ImportGraph where
  /-- The units that a unit refers to. -/
  imports : Table (Roster String) := {}
  /-- The units that refer to a unit. -/
  importers : Table (Roster String) := {}

namespace ImportGraph

instance : Inhabited ImportGraph := ⟨{}⟩

/-- The neighbours of a unit in one of the two tables. -/
def neighbours (table : Table (Roster String)) (unit : String) : Roster String :=
  (table.get? unit).getD Roster.empty

/-- Add a neighbour. -/
def link (table : Table (Roster String)) (unit neighbour : String) : Table (Roster String) :=
  table.insert unit ((neighbours table unit).insert neighbour)

/-- Take a neighbour away; a unit without neighbours leaves the table. -/
def unlink (table : Table (Roster String)) (unit neighbour : String) : Table (Roster String) :=
  match table.get? unit with
  | none => table
  | some r =>
    let rest := r.erase neighbour
    if rest.isEmpty then table.erase unit else table.insert unit rest

/-- `unit` refers to a declaration of `imported`. A unit does not import itself. -/
def addImport (g : ImportGraph) (unit imported : String) : ImportGraph :=
  if unit = imported then g
  else ⟨link g.imports unit imported, link g.importers imported unit⟩

/-- Forget what `unit` imports. The units that import it keep doing so: they still refer to it and
are affected when it comes back. -/
def forget (g : ImportGraph) (unit : String) : ImportGraph :=
  match g.imports.get? unit with
  | none => g
  | some previous =>
    ⟨g.imports.erase unit,
      previous.toList.foldl (fun table imported => unlink table imported unit) g.importers⟩

/-- Replace what `unit` imports. -/
def replaceImports (g : ImportGraph) (unit : String) (imported : List String) : ImportGraph :=
  imported.foldl (fun g i => g.addImport unit i) (g.forget unit)

/-! ## Questions -/

/-- The units that `unit` refers to, in ascending order. -/
def importsOf (g : ImportGraph) (unit : String) : List String :=
  Text.sortNames (neighbours g.imports unit).toList

/-- The units that refer to `unit`, in ascending order. -/
def importersOf (g : ImportGraph) (unit : String) : List String :=
  Text.sortNames (neighbours g.importers unit).toList

/-- Every unit with an import or an importer. -/
def units (g : ImportGraph) : Roster String := Roster.ofList (g.imports.keys ++ g.importers.keys)

/-- Whether `unit` has an import or an importer. -/
def contains (g : ImportGraph) (unit : String) : Bool :=
  g.imports.contains unit || g.importers.contains unit

/-- The other units that refer to `unit`, directly or through others, in ascending order. -/
def affected (g : ImportGraph) (unit : String) : List String :=
  let next (u : String) := (neighbours g.importers u).toList
  Text.sortNames ((closure next (g.units.size + 1) unit).erase unit).toList

/-! ## Laws -/

theorem mem_neighbours_link {table : Table (Roster String)} {u v a b : String} :
    b ∈ neighbours (link table u v) a ↔ b ∈ neighbours table a ∨ a = u ∧ b = v := by
  unfold link neighbours
  rw [Table.get?_insert]
  by_cases h : a = u
  · subst h
    simp
  · simp [h]

end ImportGraph

end Bindery
