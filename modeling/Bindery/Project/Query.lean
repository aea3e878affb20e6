import Bindery.Project.Basic
import Bindery.Graph.Emission

/-!
# Questions to a project

* `Project.parentClass?`, `Project.ancestry`: the base class of a class, and all of its ancestors.
* `Project.hasStatic`, `Project.convertibleName?`: what a class has or inherits.
* `Project.affected`: the units to bind again when one changes.
* `Project.emissionGraph`: what has to be emitted before what.
-/

namespace Bindery.Project

variable (p : Project)

/-- The symbol with exactly this qualified name. -/
def find? (qualified : String) : Option Symbol :=
  (p.store.names.byQualifiedName? qualified none).bind p.symbol?

/-- The number of symbols. -/
def numSymbols : Nat := p.store.symbols.count

/-! ## Inheritance -/

/-- No chain of ancestors is followed further than this. -/
def maxInheritance : Nat := 512

/-- A class or interface other than `id`. -/
def isOtherClass (id candidate : SymbolId) : Bool :=
  candidate ≠ id && p.store.isClassOrInterface candidate

/-- The base class: the one found when the class was bound, if it is still there, else the one that
goes by the name of the base now. -/
def parentClass? (id : SymbolId) : Option SymbolId := do
  let symbol ← p.symbol? id
  let c ← symbol.classInfo
  (c.parent.filter (p.isOtherClass id)).or do
    let candidate ← p.store.names.byQualifiedName? (← c.base) (some symbol.qualified)
    if p.isOtherClass id candidate then some candidate else none

/-- The next ancestors, at most as many as the number says, up to one that has been met before. -/
def ancestors : Nat → List SymbolId → SymbolId → List SymbolId
  | 0, _, _ => []
  | room + 1, met, id =>
    match p.parentClass? id with
    | none => []
    | some parent => if parent ∈ met then [] else parent :: ancestors room (parent :: met) parent

/-- A class and its ancestors, the nearest first. -/
def ancestry (id : SymbolId) : List SymbolId := id :: p.ancestors (maxInheritance - 1) [id] id

/-- What a class and its ancestors declare. -/
def ancestryInfo (id : SymbolId) : List ClassInfo :=
  (p.ancestry id).filterMap fun c => (p.symbol? c).bind Symbol.classInfo

/-- Whether a class or one of its ancestors declares a static property. -/
def hasStatic (id : SymbolId) (name : String) : Bool :=
  (p.ancestryInfo id).any (·.hasOwnStatic name)

/-- The name under which a class can be converted: its own, else that of the nearest ancestor. -/
def convertibleName? (id : SymbolId) : Option String :=
  (p.ancestryInfo id).findSome? ClassInfo.convertible

/-! ## The build -/

/-- The units to bind again when one changes, in ascending order. -/
def affected (uri : String) : List String := p.graph.affected uri

/-- Every symbol of every unit, units in the order in which they were bound. -/
def allSymbols : List Symbol :=
  p.units.values.flatMap fun u => u.symbols.filterMap p.symbol?

/-- The dependencies of a symbol inside the build. -/
def internalEdges (s : Symbol) : List Dependency :=
  s.edges.filter fun e =>
    match e.origin with
    | .sameUnit | .otherUnit _ => true
    | .package | .ambient => false

/-- What has to be emitted before what. Dependencies on names outside the build are left out. -/
def emissionGraph : EmissionGraph :=
  let symbols := p.allSymbols
  let nodes := symbols.foldl (fun g s => g.addNode s.qualified) {}
  symbols.foldl (fun g s =>
    (internalEdges s).foldl (fun (g : EmissionGraph) e =>
      if g.contains e.target then g.addEdge s.qualified e.target e.strong else g) g) nodes

/-! ## Laws -/

/-- The parent of a class is another class. -/
theorem isOtherClass_of_parentClass? {id parent : SymbolId} (h : p.parentClass? id = some parent) :
    p.isOtherClass id parent = true := by
  unfold parentClass? at h
  obtain ⟨symbol, _, h⟩ := Option.bind_eq_some_iff.1 h
  obtain ⟨c, _, h⟩ := Option.bind_eq_some_iff.1 h
  rcases Option.or_eq_some_iff.1 h with h | ⟨_, h⟩
  · exact (Option.filter_eq_some_iff.1 h).2
  · obtain ⟨base, _, h⟩ := Option.bind_eq_some_iff.1 h
    obtain ⟨candidate, _, h⟩ := Option.bind_eq_some_iff.1 h
    split at h
    · rename_i hc
      obtain rfl := Option.some.inj h
      exact hc
    · simp at h

/-- No ancestry is longer than the limit. -/
theorem length_ancestry_le (id : SymbolId) : (p.ancestry id).length ≤ maxInheritance := by
  have aux (room : Nat) (met : List SymbolId) (i : SymbolId) :
      (p.ancestors room met i).length ≤ room := by
    fun_induction ancestors p room met i with
    | case1 => simp
    | case2 => simp
    | case3 => simp
    | case4 met room id parent _ _ ih => simp; omega
  have := aux (maxInheritance - 1) [id] id
  simp only [ancestry, List.length_cons, maxInheritance] at *
  omega

end Bindery.Project
