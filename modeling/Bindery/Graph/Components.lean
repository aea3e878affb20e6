import Bindery.Roster
import Bindery.Table

/-!
# Components

The vertices of a graph in groups of those that can be reached from one another, found in one walk
(Tarjan's algorithm). The walk numbers the vertices as it meets them, and keeps each of them on a
stack until its group is complete.

* `ComponentSearch`: what has been found out by then.
* `ComponentSearch.connect`: the walk from one vertex on.
* `components`: the groups of a whole graph.
-/

namespace Bindery

/-- What a walk through a graph has found out. -/
structure ComponentSearch where
  /-- How many vertices have been met. -/
  count : Nat := 0
  /-- The number of every vertex that has been met. -/
  index : Table Nat := {}
  /-- The least number on the stack that every vertex is known to reach. -/
  low : Table Nat := {}
  /-- The vertices whose groups are not complete, the one met last in front. -/
  stack : List String := []
  /-- The vertices on the stack. -/
  onStack : Roster String := Roster.empty
  /-- The groups that are complete. -/
  found : List (List String) := []

namespace ComponentSearch

/-- The number of a vertex; one without a number comes after all others. -/
def numberIn (t : Table Nat) (v : String) : Nat := (t.get? v).getD 4294967295

/-- Give a vertex the next number and put it on the stack. -/
def enter (s : ComponentSearch) (v : String) : ComponentSearch :=
  { s with
    count := s.count + 1
    index := s.index.insert v s.count
    low := s.low.insert v s.count
    stack := v :: s.stack
    onStack := s.onStack.insert v }

/-- The vertex `v` reaches the number `n`. -/
def lower (s : ComponentSearch) (v : String) (n : Nat) : ComponentSearch :=
  { s with low := s.low.insert v (min (numberIn s.low v) n) }

/-- What is on a stack down to a vertex, and what is left below it. -/
def popThrough (v : String) : List String → List String × List String
  | [] => ([], [])
  | w :: ws => if w = v then ([w], ws) else (w :: (popThrough v ws).1, (popThrough v ws).2)

/-- Close the group of a vertex that reaches nothing below it on the stack. -/
def leave (s : ComponentSearch) (v : String) : ComponentSearch :=
  if s.low.get? v = s.index.get? v then
    let (group, rest) := popThrough v s.stack
    { s with
      stack := rest
      onStack := group.foldl Roster.erase s.onStack
      found := s.found ++ [group] }
  else s

/-- Follow the edge from `v` to `w`; `visit` walks on from a vertex that is met for the first
time. -/
def follow (visit : ComponentSearch → String → Option ComponentSearch) (v : String)
    (s : ComponentSearch) (w : String) : Option ComponentSearch :=
  if s.index.contains w then
    some (if w ∈ s.onStack then s.lower v (numberIn s.index w) else s)
  else (visit s w).map fun s' => s'.lower v (numberIn s'.low w)

/-- Walk on from a vertex that is met for the first time, along `next`. A walk that would go through
more than `depth` vertices at once breaks off. -/
def connect (next : String → List String) :
    Nat → ComponentSearch → String → Option ComponentSearch
  | 0, _, _ => none
  | depth + 1, s, v =>
    ((next v).foldlM (follow (connect next depth) v) (s.enter v)).map fun s' => s'.leave v

/-- Walk on from a vertex, unless it has been met. -/
def visit (next : String → List String) (depth : Nat) (s : ComponentSearch) (v : String) :
    Option ComponentSearch :=
  if s.index.contains v then some s else connect next depth s v

end ComponentSearch

/-- The groups of vertices that can be reached from one another along `next`, in the order in which
they are completed. -/
def components (next : String → List String) (vertices : List String) (depth : Nat) :
    Option (List (List String)) :=
  (vertices.foldlM (ComponentSearch.visit next depth) {}).map ComponentSearch.found

end Bindery
