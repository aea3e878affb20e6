import Bindery.Project.Query
import Bindery.Proofs.Graph.Emission
import Bindery.Proofs.Project.Run

/-!
# What has to be emitted before what

The declarations of a project and the strong dependencies between them, as the order of emission
sees them.

* `Symbol.Needs`: a strong dependency on a declaration of the build.
* **`Project.mem_strongTargets_emissionGraph`**: the strong edges of the graph.
* **`Project.precedes_of_needs`**: what a symbol needs is emitted before it.
-/

namespace Bindery

/-- A symbol strongly depends on a declaration inside the build. -/
def Symbol.Needs (x : Symbol) (target : String) : Prop :=
  ∃ e ∈ Project.internalEdges x, e.target = target ∧ e.strong = true

/-- In a list that holds `b`, every `b` comes after some `a`. -/
def Precedes (a b : String) (order : List String) : Prop :=
  b ∈ order ∧ ∀ pre post, order = pre ++ b :: post → a ∈ pre

namespace Project

open EmissionGraph

/-! ## Building the graph -/

theorem mem_names_addNodes {xs : List Symbol} {g : EmissionGraph} {n : String} :
    n ∈ (xs.foldl (fun g x => g.addNode x.qualified) g).names ↔
      n ∈ g.names ∨ ∃ x ∈ xs, x.qualified = n := by
  induction xs generalizing g with
  | nil => simp
  | cons x xs ih =>
    rw [List.foldl_cons, ih, mem_names_addNode]
    simp only [List.mem_cons, exists_eq_or_imp, or_assoc, eq_comm (a := n)]

theorem edges_addNodes {xs : List Symbol} {g : EmissionGraph} (n : String) :
    (xs.foldl (fun g x => g.addNode x.qualified) g).edges n = g.edges n := by
  induction xs generalizing g with
  | nil => rfl
  | cons x xs ih => rw [List.foldl_cons, ih, edges_addNode]

theorem isClosed_addNodes {xs : List Symbol} {g : EmissionGraph} (h : g.IsClosed) :
    (xs.foldl (fun g x => g.addNode x.qualified) g).IsClosed :=
  List.foldlRecOn (motive := IsClosed) xs _ h fun _ hg x _ => hg.addNode x.qualified

/-- Add one dependency of a symbol, unless it leads out of the build. -/
def addDependency (g : EmissionGraph) (d : Symbol × Dependency) : EmissionGraph :=
  if g.contains d.2.target then g.addEdge d.1.qualified d.2.target d.2.strong else g

/-- What dependencies between declarations of a graph add to it. -/
structure Adds (g : EmissionGraph) (ds : List (Symbol × Dependency)) (g' : EmissionGraph) :
    Prop where
  closed : g.IsClosed → g'.IsClosed
  names : ∀ n, n ∈ g'.names ↔ n ∈ g.names
  targets : ∀ n t, t ∈ g'.targets n ↔ t ∈ g.targets n ∨
    ∃ d ∈ ds, d.1.qualified = n ∧ d.2.target = t ∧ t ∈ g.names ∧ n ≠ t
  strong : ∀ n t, t ∈ g'.strongTargets n ↔ t ∈ g.strongTargets n ∨
    ∃ d ∈ ds, d.1.qualified = n ∧ d.2.target = t ∧ d.2.strong = true ∧ t ∈ g.names ∧ n ≠ t

theorem adds_addDependency {g : EmissionGraph} {d : Symbol × Dependency}
    (hd : d.1.qualified ∈ g.names) : Adds g [d] (addDependency g d) := by
  unfold addDependency
  split_ifs with hc
  · rw [contains_iff] at hc
    refine ⟨fun h => h.addEdge _ _ _, fun n => ?_, fun n t => ?_, fun n t => ?_⟩
    · rw [mem_names_addEdge]
      refine ⟨fun h => h.elim id fun h => ?_, .inl⟩
      rcases h.2 with rfl | rfl
      · exact hc
      · exact hd
    · rw [mem_targets_addEdge]
      simp only [List.mem_singleton, exists_eq_left]
      refine or_congr_right ⟨?_, ?_⟩
      · rintro ⟨rfl, rfl, hne⟩
        exact ⟨rfl, rfl, hc, hne⟩
      · rintro ⟨rfl, rfl, -, hne⟩
        exact ⟨rfl, rfl, hne⟩
    · rw [mem_strongTargets_addEdge]
      simp only [List.mem_singleton, exists_eq_left]
      refine or_congr_right ⟨?_, ?_⟩
      · rintro ⟨rfl, rfl, hne, hs⟩
        exact ⟨rfl, rfl, hs, hc, hne⟩
      · rintro ⟨rfl, rfl, hs, -, hne⟩
        exact ⟨rfl, rfl, hne, hs⟩
  · refine ⟨id, fun n => Iff.rfl, fun n t => ⟨.inl, fun h => h.elim id ?_⟩,
      fun n t => ⟨.inl, fun h => h.elim id ?_⟩⟩
    · rintro ⟨d', hd', rfl, rfl, hm, -⟩
      obtain rfl := List.mem_singleton.mp hd'
      exact absurd (contains_iff.mpr hm) hc
    · rintro ⟨d', hd', rfl, rfl, -, hm, -⟩
      obtain rfl := List.mem_singleton.mp hd'
      exact absurd (contains_iff.mpr hm) hc

theorem adds_foldl {g : EmissionGraph} {ds : List (Symbol × Dependency)}
    (hd : ∀ d ∈ ds, d.1.qualified ∈ g.names) : Adds g ds (ds.foldl addDependency g) := by
  induction ds generalizing g with
  | nil => exact ⟨id, fun n => Iff.rfl, fun n t => by simp, fun n t => by simp⟩
  | cons d ds ih =>
    rw [List.forall_mem_cons] at hd
    have h₁ := adds_addDependency hd.1
    have h₂ := ih (g := addDependency g d) fun d' hd' => (h₁.names _).mpr (hd.2 d' hd')
    refine ⟨fun h => h₂.closed (h₁.closed h), fun n => (h₂.names n).trans (h₁.names n),
      fun n t => ?_, fun n t => ?_⟩
    · rw [List.foldl_cons, h₂.targets, h₁.targets]
      simp only [List.mem_cons, exists_eq_or_imp, List.not_mem_nil, or_false, h₁.names, or_assoc,
        exists_eq_left]
    · rw [List.foldl_cons, h₂.strong, h₁.strong]
      simp only [List.mem_cons, exists_eq_or_imp, List.not_mem_nil, or_false, h₁.names, or_assoc,
        exists_eq_left]

/-! ## The graph of a project -/

variable {p : Project}

/-- Every dependency inside the build, with the symbol that has it. -/
def dependencies (p : Project) : List (Symbol × Dependency) :=
  p.allSymbols.flatMap fun x => (internalEdges x).map fun e => (x, e)

/-- The declarations of a project, without their dependencies. -/
def declarationGraph (p : Project) : EmissionGraph :=
  p.allSymbols.foldl (fun g x => g.addNode x.qualified) {}

theorem emissionGraph_eq (p : Project) :
    p.emissionGraph = p.dependencies.foldl addDependency p.declarationGraph := by
  rw [dependencies, List.foldl_flatMap]
  simp only [List.foldl_map]
  rfl

theorem adds_emissionGraph (p : Project) :
    Adds p.declarationGraph p.dependencies p.emissionGraph := by
  rw [emissionGraph_eq]
  refine adds_foldl fun d hd => ?_
  obtain ⟨x, hx, hd⟩ := List.mem_flatMap.mp hd
  obtain ⟨e, -, rfl⟩ := List.mem_map.mp hd
  exact mem_names_addNodes.mpr (.inr ⟨x, hx, rfl⟩)

theorem isClosed_emissionGraph (p : Project) : p.emissionGraph.IsClosed :=
  (adds_emissionGraph p).closed (isClosed_addNodes isClosed_empty)

theorem mem_names_emissionGraph {n : String} :
    n ∈ p.emissionGraph.names ↔ ∃ x ∈ p.allSymbols, x.qualified = n := by
  rw [(adds_emissionGraph p).names, declarationGraph, mem_names_addNodes]
  exact ⟨fun h => h.elim (fun h => absurd h List.not_mem_nil) id, .inr⟩

theorem mem_targets_emissionGraph {x : Symbol} (hx : x ∈ p.allSymbols) {e : Dependency}
    (he : e ∈ internalEdges x) (hm : e.target ∈ p.emissionGraph.names)
    (hne : x.qualified ≠ e.target) : e.target ∈ p.emissionGraph.targets x.qualified := by
  rw [(adds_emissionGraph p).names] at hm
  exact ((adds_emissionGraph p).targets _ _).mpr (.inr ⟨(x, e),
    List.mem_flatMap.mpr ⟨x, hx, List.mem_map.mpr ⟨e, he, rfl⟩⟩, rfl, rfl, hm, hne⟩)

/-- **The strong edges of the graph** are what the symbols of a name need, apart from themselves
and from what is not there. -/
theorem mem_strongTargets_emissionGraph {n t : String} :
    t ∈ p.emissionGraph.strongTargets n ↔ n ≠ t ∧ t ∈ p.emissionGraph.names ∧
      ∃ x ∈ p.allSymbols, x.qualified = n ∧ x.Needs t := by
  have hnone : t ∉ p.declarationGraph.strongTargets n := by
    rw [mem_strongTargets, declarationGraph, edges_addNodes]
    exact List.not_mem_nil
  rw [(adds_emissionGraph p).strong, or_iff_right hnone, (adds_emissionGraph p).names]
  constructor
  · rintro ⟨d, hd, rfl, rfl, hs, hm, hne⟩
    obtain ⟨x, hx, hd⟩ := List.mem_flatMap.mp hd
    obtain ⟨e, he, rfl⟩ := List.mem_map.mp hd
    exact ⟨hne, hm, x, hx, rfl, e, he, rfl, hs⟩
  · rintro ⟨hne, hm, x, hx, rfl, e, he, rfl, hs⟩
    exact ⟨(x, e), List.mem_flatMap.mpr ⟨x, hx, List.mem_map.mpr ⟨e, he, rfl⟩⟩, rfl, rfl, hs, hm,
      hne⟩

theorem mem_allSymbols (hl : p.store.Lists p.roll) {x : Symbol} :
    x ∈ p.allSymbols ↔ ∃ id, p.symbol? id = some x := by
  have heq : p.allSymbols = (p.units.values.flatMap BoundUnit.symbols).filterMap p.symbol? := by
    rw [allSymbols, List.filterMap_flatMap]
  rw [heq, ← map_id_roll, List.mem_filterMap]
  constructor
  · rintro ⟨id, -, hx⟩
    exact ⟨id, hx⟩
  · rintro ⟨id, hx⟩
    refine ⟨id, (hl.live id).mp ?_, hx⟩
    rw [show p.store.symbol? id = some x from hx]
    rfl

/-- **What a symbol needs is emitted before it.** -/
theorem precedes_of_needs (hl : p.store.Lists p.roll) {id k : SymbolId} {x y : Symbol}
    (hx : p.symbol? id = some x) (hy : p.symbol? k = some y) (hn : x.Needs y.qualified)
    (hne : y.qualified ≠ x.qualified) {order : List String}
    (ho : p.emissionGraph.order = .ok order) : Precedes y.qualified x.qualified order := by
  have hxs : x ∈ p.allSymbols := (mem_allSymbols hl).mpr ⟨id, hx⟩
  have hys : y ∈ p.allSymbols := (mem_allSymbols hl).mpr ⟨k, hy⟩
  obtain ⟨hsorted, hall⟩ := isSorted_order (isClosed_emissionGraph p) ho
  refine ⟨hall _ (mem_names_emissionGraph.mpr ⟨x, hxs, rfl⟩), fun pre post he => ?_⟩
  refine hsorted pre _ post he _ (mem_strongTargets_emissionGraph.mpr ⟨hne.symm, ?_, x, hxs, rfl, hn⟩)
  exact mem_names_emissionGraph.mpr ⟨y, hys, rfl⟩

end Project

end Bindery
