import Bindery.Tree.Basic

/-!
# The way through a declaration

The walk below a declaration looks at every node on its own and then at its children. A type
reference or an instantiation is read as a whole, by its name and its type arguments, so that the
walk does not come by the nodes inside of it.

* `Form.isOpen`: the nodes whose children are looked at one by one.
* `Tree.Meets`: the nodes that are met on the way down.
* `Tree.declarationNodes`, `Tree.DeclaresAt`: where a statement declares a name.
* `Tree.textRoots`: where the walk starts.
-/

namespace Bindery

/-- Everything but type references and instantiations, which are read as a whole: what lies below
them is no expression of its own. -/
def Form.isOpen : Form → Bool
  | .typeReference _ _ | .instantiation _ _ => false
  | _ => true

namespace Tree

variable (t : Tree)

/-- **The node `a` is met on the way down from `i`**, at most `depth` levels below it and behind
nodes with a form in `through` only. -/
inductive Meets (through : Form → Bool) : Nat → Nat → Nat → Prop where
  | child {depth i a : Nat} (ha : a ∈ t.children (some i)) : Meets through (depth + 1) i a
  | deeper {depth i c a : Nat} (hc : c ∈ t.children (some i))
      (hf : ∀ form ∈ t.form? (some c), through form = true) (h : Meets through depth c a) :
      Meets through (depth + 1) i a

/-- The nodes of the declarations in a statement: itself, unless it declares variables. -/
def declarationNodes (statement : Slot) : List Slot :=
  match t.form? statement with
  | some (.variableStatement _ declarations) => declarations
  | _ => [statement]

/-- **A statement declares a name at the node `i`**, which has this span. -/
structure DeclaresAt (statement : Slot) (i : Nat) (name : String) (span : Span) : Prop where
  node : some i ∈ t.declarationNodes statement
  name : t.declaredName? (some i) = some name
  span : t.span? (some i) = some span

/-- The nodes below which the text of the declaration at `i` is read: the declaration itself, or, of
a class, its decorators and everything else in it but its heritage clauses. -/
def textRoots (statement : Slot) (i : Nat) : List Nat :=
  match t.form? statement with
  | some (.classLike _ parts) => (t.children statement).filter fun c =>
      parts.header.decorators.contains (some c) || !parts.heritage.contains (some c)
  | _ => [i]

variable {t}

theorem mem_children_of_slots {i c : Nat} {form : Form} (hform : t.form? (some i) = some form)
    (hc : some c ∈ form.slots) : c ∈ t.children (some i) := by
  rw [children, hform, Option.map_some, Option.getD_some, Form.children]
  exact List.mem_filterMap.mpr ⟨some c, hc, rfl⟩

theorem mem_textRoots_classLike {kind : ClassKind} {i root : Nat} {parts : ClassParts}
    (hform : t.form? (some i) = some (.classLike kind parts)) :
    root ∈ t.textRoots (some i) i ↔ root ∈ t.children (some i) ∧
      (some root ∈ parts.header.decorators ∨ some root ∉ parts.heritage) := by
  rw [textRoots, hform, List.mem_filter, Bool.or_eq_true, Bool.not_eq_true', List.contains_iff_mem,
    ← Bool.not_eq_true, List.contains_iff_mem]

/-- The walk starts at the declaration or at one of its children. -/
theorem mem_textRoots {statement : Slot} {i root : Nat}
    (hi : some i ∈ t.declarationNodes statement) (h : root ∈ t.textRoots statement i) :
    root = i ∨ root ∈ t.children (some i) := by
  unfold textRoots at h
  split at h
  · next hform =>
    rw [declarationNodes, hform] at hi
    rw [List.mem_singleton.mp hi]
    exact .inr (List.mem_filter.mp h).1
  · exact .inl (List.mem_singleton.mp h)

end Tree

end Bindery
