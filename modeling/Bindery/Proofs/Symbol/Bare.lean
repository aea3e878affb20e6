import Mathlib.Tactic.SplitIfs
import Bindery.Project.Basic
import Bindery.Proofs.Store.Arena

/-!
# Symbols without their references

A symbol is declared once. What its references lead to is found out while its unit is bound and, for
imports that waited, afterwards; none of that touches the declaration itself.

* `Symbol.bare`: the declaration alone.
* `Symbol.bare_settle`: a late import leaves it alone.
* `Store.bare`: the declarations of a store.
-/

namespace Bindery

namespace Symbol

/-- The declaration of a symbol, and whether it is a class; nothing about its references. -/
def bare (s : Symbol) : Symbol :=
  { s with table := {}, edges := [], loaded := {}, classInfo := s.classInfo.map fun _ => default }

variable (s : Symbol)

@[simp] theorem name_bare : s.bare.name = s.name := rfl

@[simp] theorem qualified_bare : s.bare.qualified = s.qualified := rfl

@[simp] theorem uri_bare : s.bare.uri = s.uri := rfl

theorem isClassOrInterface_bare : s.bare.isClassOrInterface = s.isClassOrInterface := by
  simp [bare, isClassOrInterface]

@[simp] theorem bare_updateClass (f : ClassInfo → ClassInfo) : (s.updateClass f).bare = s.bare := by
  simp [bare, updateClass, Function.comp_def]

@[simp] theorem bare_addEdge (e : Dependency) : (s.addEdge e).bare = s.bare := by
  unfold addEdge
  split_ifs <;> rfl

@[simp] theorem bare_settle (name target source : String) (r : WaitingReference) :
    (s.settle name target source r).bare = s.bare := by
  unfold settle
  rw [bare_addEdge, bare_updateClass]
  rfl

/-- What is read off the declaration alone. -/
theorem map_of_bare {α : Type} {f : Symbol → α} (hf : ∀ x : Symbol, f x.bare = f x)
    {o o' : Option Symbol} (h : o.map bare = o'.map bare) : o.map f = o'.map f := by
  have hbare : ∀ o : Option Symbol, o.map f = (o.map bare).map f := fun o => by
    rw [Option.map_map, show f ∘ bare = f from funext hf]
  rw [hbare, h, ← hbare]

variable {s} {t : Symbol} (h : s.bare = t.bare)

include h

theorem name_of_bare : s.name = t.name := by
  rw [← name_bare s, h, name_bare]

theorem qualified_of_bare : s.qualified = t.qualified := by
  rw [← qualified_bare s, h, qualified_bare]

theorem uri_of_bare : s.uri = t.uri := by
  rw [← uri_bare s, h, uri_bare]

theorem span_of_bare : s.span = t.span := (congrArg span h :)

theorem ignored_of_bare : s.ignored = t.ignored := (congrArg ignored h :)

theorem isClassOrInterface_of_bare : s.isClassOrInterface = t.isClassOrInterface := by
  rw [← isClassOrInterface_bare s, h, isClassOrInterface_bare]

/-- Symbols with the same declaration differ in their references only. -/
theorem rest_of_bare : s = { t with
    table := s.table, edges := s.edges, loaded := s.loaded, classInfo := s.classInfo } := by
  cases s
  cases t
  simp only [bare, mk.injEq, true_and] at h ⊢
  obtain ⟨h1, h2, h3, h4, h5, h6, h7, h8, h9, h10, h11, h12, -⟩ := h
  exact ⟨h1, h2, h3, h4, h5, h6, h7, h8, h9, h10, h11, h12, trivial⟩

end Symbol

/-! ## Stores whose symbols differ in their references only -/

namespace Store

/-- The store with the declarations of its symbols alone. -/
def bare (s : Store) : Store := { s with symbols := s.symbols.map Symbol.bare }

theorem symbol?_bare (s : Store) (id : SymbolId) :
    s.bare.symbol? id = (s.symbol? id).map Symbol.bare := Arena.get?_map _ _ _

section Share

variable {s t : Store} (h : s.bare = t.bare)

include h

theorem names_of_bare : s.names = t.names := (congrArg names h :)

theorem symbol?_of_bare (id : SymbolId) :
    (s.symbol? id).map Symbol.bare = (t.symbol? id).map Symbol.bare := by
  rw [← symbol?_bare, h, symbol?_bare]

theorem isClassOrInterface_of_bare : s.isClassOrInterface = t.isClassOrInterface := by
  funext id
  have hs := congrArg (Option.any Symbol.isClassOrInterface) (symbol?_of_bare h id)
  simp only [Option.any_map, Symbol.isClassOrInterface_bare] at hs
  exact hs

end Share

end Store

end Bindery
