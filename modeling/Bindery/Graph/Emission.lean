import Bindery.Graph.Components
import Bindery.Table

/-!
# The order of emission

Declarations and the declarations they depend on. Only strong dependencies say which declaration
has to be emitted first; weak ones are kept for questions.

* `EmissionGraph.order`: every declaration after those it strongly depends on, or a cycle.
* `EmissionGraph.cycleGroups`: the groups of declarations that strongly depend on one another.
-/

namespace Bindery

/-- A dependency on another declaration. -/
structure EmissionEdge where
  target : String
  strong : Bool
  deriving DecidableEq, Repr

/-- Declarations in the order in which they were added, each with its dependencies. -/
structure EmissionGraph where
  nodes : Table (List EmissionEdge) := {}

/-- A cycle of strong dependencies, from a declaration back to itself. -/
structure StrongCycle where
  path : List String
  deriving DecidableEq, Repr

/-- What is reported to the user. -/
def StrongCycle.message (c : StrongCycle) : String :=
  "circular strong dependency: " ++ " -> ".intercalate c.path

namespace EmissionGraph

instance : Inhabited EmissionGraph := ⟨{}⟩

/-- Add an edge; one to the same target becomes strong if either is. -/
def addTo (edge : EmissionEdge) : List EmissionEdge → List EmissionEdge
  | [] => [edge]
  | e :: es =>
    if e.target = edge.target then { e with strong := e.strong || edge.strong } :: es
    else e :: addTo edge es

/-- Whether a declaration is in the graph. -/
def contains (g : EmissionGraph) (name : String) : Bool := g.nodes.contains name

/-- Add a declaration, unless it is there. -/
def addNode (g : EmissionGraph) (name : String) : EmissionGraph :=
  if g.contains name then g else ⟨g.nodes.insert name []⟩

/-- Let `source` depend on `target`; both are added where they are missing, the target first. -/
def addEdge (g : EmissionGraph) (source target : String) (strong : Bool) : EmissionGraph :=
  if source = target then g
  else ⟨((g.addNode target).addNode source).nodes.modify source (addTo ⟨target, strong⟩)⟩

/-- The edges from a declaration, in the order in which they were added. -/
def edges (g : EmissionGraph) (name : String) : List EmissionEdge := (g.nodes.get? name).getD []

/-- What a declaration depends on. -/
def targets (g : EmissionGraph) (name : String) : List String := (g.edges name).map (·.target)

/-- What a declaration strongly depends on. -/
def strongTargets (g : EmissionGraph) (name : String) : List String :=
  ((g.edges name).filter (·.strong)).map (·.target)

/-! ## Emission order -/

/-- Emit `name` after what it depends on. `path` leads to `name` through strong dependencies, and
`order` has been emitted before. A path without repeats is no longer than the graph is large, which
bounds the recursion. -/
def emit (g : EmissionGraph) : Nat → List String → List String → String →
    Except StrongCycle (List String)
  | 0, _, order, _ => .ok order
  | fuel + 1, path, order, name =>
    match path.dropWhile (· ≠ name) with
    | [] =>
      if name ∈ order then .ok order
      else do
        let order ← (g.strongTargets name).foldlM (emit g fuel (path ++ [name])) order
        return order ++ [name]
    | loop => .error ⟨loop ++ [name]⟩

/-- The declarations in an order in which each comes after those it strongly depends on, or the
first cycle met. Otherwise they keep the order in which they were added. -/
def order (g : EmissionGraph) : Except StrongCycle (List String) :=
  g.nodes.keys.foldlM (g.emit (g.nodes.size + 1) []) []

/-! ## Strong cycles -/

/-- The place of a declaration in the order in which they were added. -/
def position (g : EmissionGraph) (name : String) : Nat := g.nodes.keys.idxOf name

/-- The place of the first declaration of a group. -/
def firstPosition (g : EmissionGraph) (group : List String) : Nat :=
  group.head?.elim g.nodes.size g.position

/-- A group in the order in which its declarations were added. -/
def inOrder (g : EmissionGraph) (group : List String) : List String :=
  group.mergeSort fun a b => g.position a ≤ g.position b

/-- The groups of two or more declarations that strongly depend on one another, directly or through
others, by the places of their first declarations. -/
def cycleGroups (g : EmissionGraph) : List (List String) :=
  let groups := (components g.strongTargets g.nodes.keys g.nodes.size).getD []
  let cycles := (groups.filter (1 < ·.length)).map g.inOrder
  cycles.mergeSort fun a b => g.firstPosition a ≤ g.firstPosition b

end EmissionGraph

end Bindery
