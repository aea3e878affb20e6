import Bindery.Text.Slice
import Bindery.Tree.Form

/-!
# Syntax trees

The nodes of one unit beside its source text. Nodes refer to one another by index, so an array of
nodes need not be a tree: a node may be a child of several others and a child may be missing.

* `Tree.add`: one more node.
* `Tree.link`: the parents of everything below a root, by the list `Tree.adoptions`.
* `Tree.text`, `Tree.declaredName?`, `Tree.modifiers`: what the binder reads off a node.
-/

namespace Bindery

/-- A node with its place in the source text. -/
structure Node where
  form : Form
  span : Span
  parent : Slot := none
  deriving DecidableEq, Repr, Inhabited

/-- The source text of a unit and its nodes. -/
structure Tree where
  file : String
  source : String
  nodes : Array Node := #[]
  root : Slot := none
  deriving Repr, Inhabited

namespace Tree

/-! ## Nodes -/

/-- The number of nodes. -/
def size (t : Tree) : Nat := t.nodes.size

/-- Append a node that has no parent yet, and tell its index. -/
def add (t : Tree) (span : Span) (form : Form) : Tree × Nat :=
  ({ t with nodes := t.nodes.push ⟨form, span, none⟩ }, t.size)

/-- The node at a place. -/
def node? (t : Tree) (i : Slot) : Option Node := i.bind (t.nodes[·]?)

/-- The category of the node at a place. -/
def form? (t : Tree) (i : Slot) : Option Form := (t.node? i).map Node.form

/-- The span of the node at a place. -/
def span? (t : Tree) (i : Slot) : Option Span := (t.node? i).map Node.span

/-- The place of the parent. -/
def parent (t : Tree) (i : Slot) : Slot := (t.node? i).bind Node.parent

/-- The children of the node at a place, in source order. -/
def children (t : Tree) (i : Slot) : List Nat := ((t.form? i).map Form.children).getD []

/-! ## Parents -/

/-- Below `p`, down to a depth: each child with its parent, in the order in which the links are
made. The children of `p` come first, then what lies below the last child, and so on to the first
child. -/
def adoptionsBelow (t : Tree) : Nat → Nat → List (Nat × Nat)
  | 0, _ => []
  | depth + 1, p =>
    let children := t.children (some p)
    children.map (·, p) ++ children.reverse.flatMap (t.adoptionsBelow depth)

/-- The links below `root`. No path down a tree without cycles is longer than the number of its
nodes. -/
def adoptions (t : Tree) (root : Nat) : List (Nat × Nat) := t.adoptionsBelow (t.size + 1) root

/-- Link one child to its parent; a child that does not exist is passed over. -/
def adopt (t : Tree) (pair : Nat × Nat) : Tree :=
  { t with nodes := t.nodes.modify pair.1 fun n => { n with parent := some pair.2 } }

/-- Set the root and link everything below it to its parent; of several parents the one linked last
stays. -/
def link (t : Tree) (root : Nat) : Tree :=
  { (t.adoptions root).foldl adopt t with root := some root }

/-! ## What a node says -/

/-- The source text of a node; empty if there is none. -/
def text (t : Tree) (i : Slot) : String :=
  ((t.span? i).bind (Text.sliceString? t.source)).getD ""

/-- The text of an identifier. -/
def identifier? (t : Tree) (i : Slot) : Option String :=
  match t.form? i with
  | some (.identifier text) => some text
  | _ => none

/-- The name of whatever binds one: the text of an identifier, else the source text of the name. -/
def declaredName? (t : Tree) (i : Slot) : Option String := do
  let name ← (← t.form? i).name
  return (t.identifier? (some name)).getD (t.text (some name))

/-- The header of a declaration. -/
def header? (t : Tree) (i : Slot) : Option Header := (t.form? i).bind Form.header?

/-- The modifier that a node stands for. -/
def modifier? (t : Tree) (i : Slot) : Option Modifier :=
  match t.form? i with
  | some (.modifier m) => some m
  | _ => none

/-- The modifiers of a declaration, in source order. -/
def modifiers (t : Tree) (i : Slot) : List Modifier :=
  ((t.header? i).map fun h => h.modifiers.filterMap t.modifier?).getD []

/-- The first node of a list that stands for a modifier. -/
def findModifier? (t : Tree) (places : List Slot) (m : Modifier) : Option Nat :=
  (places.find? fun i => t.modifier? i = some m).join

/-- The node is the name of its parent, so it binds a name and does not refer to one. -/
def isDeclaredName (t : Tree) (i : Slot) : Bool :=
  match t.form? (t.parent i) with
  | some f => f.name = i
  | none => false

/-- The short names that a statement declares. Only identifiers count. -/
def declaredNames (t : Tree) (statement : Slot) : List String :=
  match t.form? statement with
  | some (.variableStatement _ declarations) =>
    declarations.filterMap fun d => (t.form? d).bind fun f => t.identifier? f.name
  | some f => (t.identifier? f.name).toList
  | none => []

/-- The statements of the root, if it is a source file. -/
def statements (t : Tree) : List Slot :=
  match t.form? t.root with
  | some (.sourceFile statements) => statements
  | _ => []

/-! ## Laws -/

@[simp] theorem size_add (t : Tree) (span : Span) (form : Form) :
    (t.add span form).1.size = t.size + 1 := by simp [add, size]

@[simp] theorem node?_none (t : Tree) : t.node? none = none := rfl

/-- The new node is found under its index. -/
theorem node?_add (t : Tree) (span : Span) (form : Form) :
    (t.add span form).1.node? (some (t.add span form).2) = some ⟨form, span, none⟩ := by
  simp [add, node?, size]

/-- Adding a node leaves those before it alone. -/
theorem node?_add_of_lt (t : Tree) (span : Span) (form : Form) {i : Nat} (h : i < t.size) :
    (t.add span form).1.node? (some i) = t.node? (some i) := by
  have hne : i ≠ t.nodes.size := Nat.ne_of_lt h
  simp [add, node?, Array.getElem?_push, hne]

/-- Linking changes the parent of one node and nothing else. -/
theorem node?_adopt (t : Tree) (pair : Nat × Nat) (i : Nat) :
    (t.adopt pair).node? (some i) =
      (t.node? (some i)).map fun n =>
        if pair.1 = i then { n with parent := some pair.2 } else n := by
  unfold adopt node?
  by_cases h : pair.1 = i
  · simp [Array.getElem?_modify, h]
  · simp [Array.getElem?_modify, h]

@[simp] theorem form?_adopt (t : Tree) (pair : Nat × Nat) (i : Slot) :
    (t.adopt pair).form? i = t.form? i := by
  cases i with
  | none => rfl
  | some i =>
    unfold form?
    rw [node?_adopt]
    cases t.node? (some i) with
    | none => rfl
    | some n => by_cases h : pair.1 = i <;> simp [h]

end Tree

end Bindery
