import Mathlib.Data.List.Induction
import Bindery.Proofs.Graph.Emission
import Bindery.Proofs.Roster

/-!
# Graphs that have been built

A graph of declarations is built by adding declarations and dependencies, one after the other.

* `EmissionGraph.Change`, `EmissionGraph.build`: the changes, and the graph that they end in.
* **`EmissionGraph.names_build`**: declarations stand in the order in which they are named first.
* **`EmissionGraph.dependsOn_build`**: a dependency is strong if it was ever added as one.
-/

namespace Bindery.EmissionGraph

variable {g : EmissionGraph} {source target n t : String} {strong : Bool} {changes : List Change}

/-- A change of a graph. -/
inductive Change where
  | node (name : String)
  | edge (source target : String) (strong : Bool)
  deriving DecidableEq, Repr

/-- Make a change. -/
def change (g : EmissionGraph) : Change → EmissionGraph
  | .node name => g.addNode name
  | .edge source target strong => g.addEdge source target strong

/-- The graph that changes end in. -/
def build (changes : List Change) : EmissionGraph := changes.foldl change {}

/-- The declarations that a change names; one that depends on itself is not added for that. -/
def Change.names : Change → List String
  | .node name => [name]
  | .edge source target _ => if source = target then [] else [target, source]

/-- **A strong dependency** of one declaration on another. -/
def DependsOn (g : EmissionGraph) (a b : String) : Prop := b ∈ g.strongTargets a

theorem build_append_singleton (changes : List Change) (c : Change) :
    build (changes ++ [c]) = (build changes).change c := by
  rw [build, build, List.foldl_append]
  rfl

/-! ## Declarations -/

theorem nodup_names (g : EmissionGraph) : g.names.Nodup := g.nodes.nodup

theorem length_names (g : EmissionGraph) : g.names.length = g.nodes.size := by
  rw [names, Table.keys, List.length_map]
  rfl

theorem names_addNode (g : EmissionGraph) (name : String) :
    (g.addNode name).names = if name ∈ g.names then g.names else g.names ++ [name] := by
  unfold addNode
  split_ifs with hc hm hm
  · rfl
  · exact absurd (contains_iff.mp hc) hm
  · exact absurd (contains_iff.mpr hm) hc
  · show (g.nodes.insert name []).keys = _
    rw [Table.keys_insert, if_neg (show name ∉ g.nodes.keys from hm)]
    rfl

theorem names_addNode_of_roster {r : Roster String} (h : g.names = r.toList) (name : String) :
    (g.addNode name).names = (r.insert name).toList := by
  rw [names_addNode, h, Roster.toList_insert]
  rfl

/-- **The declarations of a graph** are those that its changes name, by first occurrence. -/
theorem names_build (changes : List Change) :
    (build changes).names = (Roster.ofList (changes.flatMap Change.names)).toList := by
  induction changes using List.reverseRecOn with
  | nil => rfl
  | append_singleton changes c ih =>
    rw [build_append_singleton, List.flatMap_append, List.flatMap_singleton]
    cases c with
    | node name =>
      rw [Change.names, Roster.ofList_append_singleton]
      exact names_addNode_of_roster ih name
    | edge source target strong =>
      rw [change, addEdge, Change.names]
      split_ifs
      · rw [ih, List.append_nil]
      · rw [← List.singleton_append, ← List.append_assoc, Roster.ofList_append_singleton,
          Roster.ofList_append_singleton]
        show (Table.modify _ _ _).keys = _
        rw [Table.keys_modify]
        exact names_addNode_of_roster (names_addNode_of_roster ih target) source

/-! ## Dependencies -/

theorem isClosed_build (changes : List Change) : (build changes).IsClosed :=
  List.foldlRecOn (motive := IsClosed) changes change isClosed_empty fun g hg c _ => by
    cases c with
    | node name => exact hg.addNode name
    | edge source target strong => exact hg.addEdge source target strong

/-- **What depends strongly on what**: a dependency is strong if it was ever added as one. -/
theorem dependsOn_build : (build changes).DependsOn n t ↔
    n ≠ t ∧ Change.edge n t true ∈ changes := by
  induction changes using List.reverseRecOn with
  | nil => exact ⟨fun h => absurd h List.not_mem_nil, fun h => absurd h.2 List.not_mem_nil⟩
  | append_singleton changes c ih =>
    rw [build_append_singleton, List.mem_append, List.mem_singleton]
    cases c with
    | node name =>
      have hsame :
          ((build changes).addNode name).DependsOn n t ↔ (build changes).DependsOn n t := by
        rw [DependsOn, mem_strongTargets, edges_addNode, ← mem_strongTargets, DependsOn]
      rw [change, hsame, ih]
      simp
    | edge source target strong =>
      rw [change, DependsOn, mem_strongTargets_addEdge]
      rw [DependsOn] at ih
      rw [ih, Change.edge.injEq]
      constructor
      · rintro (⟨hne, hm⟩ | ⟨rfl, rfl, hne, rfl⟩)
        · exact ⟨hne, .inl hm⟩
        · exact ⟨hne, .inr ⟨rfl, rfl, rfl⟩⟩
      · rintro ⟨hne, hm | ⟨rfl, rfl, rfl⟩⟩
        · exact .inl ⟨hne, hm⟩
        · exact .inr ⟨rfl, rfl, hne, rfl⟩

theorem not_dependsOn_self (changes : List Change) (n : String) : ¬(build changes).DependsOn n n :=
  fun h => (dependsOn_build.mp h).1 rfl

end Bindery.EmissionGraph
