import Bindery.Scope.Basic
import Bindery.Store.Basic
import Bindery.TypeShape
import Bindery.Options

/-!
# References

The names that a piece of source refers to, each with its place. They are read off the tree, the
scope and the names known so far; what they mean is decided later.

* `Reference`: a name, where it stands, and how much depends on it.
* `Context.typeReferences`: the names of a type expression.
* `Context.below`: every reference below a node, in the order in which they are met.
* `stripArguments`: a name without a `<...>` part.
-/

namespace Bindery

/-- What is known while the declarations of a unit are bound. -/
structure Context where
  tree : Tree
  scope : Scope
  store : Store
  options : Options

/-- A name that a declaration refers to. -/
structure Reference where
  name : String
  /-- The place to replace; none if the name is only declared to be needed. -/
  span : Option Span
  /-- The target has to be there when the declaration is evaluated. -/
  strong : Bool
  /-- The type parameters that hide declarations of the same name here. -/
  hidden : List String := []
  deriving DecidableEq, Repr, Inhabited

/-! ## Names with arguments -/

/-- The part of a name from its first `<` to its last `>`, with what stands before and after it. -/
def splitArguments? (cs : List Char) : Option (List Char × List Char × List Char) :=
  let front := cs.takeWhile (· ≠ '<')
  let rest := cs.dropWhile (· ≠ '<')
  let tail := (rest.reverse.takeWhile (· ≠ '>')).reverse
  if tail.length < rest.length then some (front, rest.take (rest.length - tail.length), tail)
  else none

/-- A name without its `<...>` part, and the number of bytes left out. -/
def stripArguments (name : String) : String × Nat :=
  match splitArguments? name.toList with
  | some (front, middle, tail) => (String.ofList (front ++ tail), Text.byteLength middle)
  | none => (name, 0)

/-- A reference without type arguments in its name; its place is shortened accordingly. -/
def Reference.strip (r : Reference) : Reference :=
  let (name, omitted) := stripArguments r.name
  if omitted = 0 then r
  else { r with name := name, span := r.span.map (·.trimEnd omitted) }

/-- A place without bytes is no place to replace. -/
def Reference.location? (r : Reference) : Option Span := r.span.filter fun s => ¬s.IsEmpty

namespace Context

variable (cx : Context)

/-- Nodes that lie deeper are not looked at. -/
def maxWalkDepth : Nat := 1000

/-! ## Single nodes -/

/-- The names of a type expression, outer ones first. -/
def typeReferences (strong : Bool) (i : Slot) : List Reference :=
  match TypeShape.ofNode? cx.tree i with
  | some shape => shape.references.map fun w => { name := w.value, span := w.nameSpan, strong }
  | none => []

/-- The qualified name `object.member`, if a symbol of that name is known under its short name. -/
def knownMember? (object member : String) : Option String :=
  ((cx.store.byShortName? member).map Symbol.qualified).filter (· = object ++ "." ++ member)

/-- The reference of `object.member`: to the whole if that is the qualified name of a symbol, else
to an object that the unit declares or imports. It stands at the object. -/
def accessReference (object member : Slot) (strong : Bool) : List Reference :=
  match cx.tree.span? object with
  | none => []
  | some s =>
    let text := cx.tree.text object
    match cx.knownMember? text (cx.tree.text member) with
    | some qualified => [{ name := qualified, span := some s, strong }]
    | none =>
      if text ≠ "this" ∧ Scope.isQualified text = false ∧
          (cx.scope.hasLocal text ∨ cx.scope.hasImport text) then
        [{ name := text, span := some s, strong }]
      else []

/-- Some symbol, declaration or import goes by a short name. -/
def isKnown (name : String) : Bool :=
  (cx.store.names.byShortName? name).isSome || cx.scope.hasLocal name || cx.scope.hasImport name

/-- Whether a node is a part of a member access. -/
def isInAccess (i : Slot) : Bool :=
  match cx.tree.form? (cx.tree.parent i) with
  | some (.access _ _) => true
  | _ => false

/-- The reference of an identifier, unless it is a part of a member access or binds a name. -/
def identifierReference (i : Slot) (text : String) (strong : Bool) : List Reference :=
  if cx.isInAccess i || cx.tree.isDeclaredName i || text = "this" || Scope.isQualified text ||
      !cx.isKnown text then []
  else match cx.tree.span? i with
    | some s => [{ name := text, span := some s, strong }]
    | none => []

/-! ## Walks -/

/-- The references of an expression itself: those of a member access and of the objects it goes
through, of the callee of a call, of a name. The number bounds the recursion. -/
def expressionReferences : Nat → Bool → Slot → List Reference
  | 0, _, _ => []
  | fuel + 1, strong, i =>
    match cx.tree.form? i with
    | some (.instantiation _ _) => cx.typeReferences strong i
    | some (.call _ callee _ _) => expressionReferences fuel strong callee
    | some (.access object member) =>
      cx.accessReference object member strong ++ expressionReferences fuel strong object
    | some (.identifier text) => cx.identifierReference i text strong
    | _ => []

/-- The references of a node and of what lies below it. Type references are taken as a whole, any
other node on its own and then its children. -/
def belowNode (recurse : Nat → List Reference) (strong : Bool) (c : Nat) : List Reference :=
  match cx.tree.form? (some c) with
  | some (.typeReference _ _) | some (.instantiation _ _) => cx.typeReferences strong (some c)
  | _ => cx.expressionReferences (cx.tree.size + 1) strong (some c) ++ recurse c

/-- The references below a node, down to a depth. -/
def belowTo : Nat → Bool → Nat → List Reference
  | 0, _, _ => []
  | depth + 1, strong, i =>
    (cx.tree.children (some i)).flatMap (cx.belowNode (belowTo depth strong) strong)

/-- The references below a node. -/
def below (strong : Bool) (i : Nat) : List Reference := cx.belowTo (maxWalkDepth + 1) strong i

/-! ## Decorators -/

/-- What the decorators of a declaration declare to be needed. -/
def declaredReferences (header : Header) : List Reference :=
  (Decorator.requirements cx.tree header).map fun d =>
    { name := d.target, span := none, strong := d.strong }

end Context

/-! ## Laws -/

theorem dropWhile_ne_of_not_mem {c : Char} {cs : List Char} (h : c ∉ cs) :
    cs.dropWhile (· ≠ c) = [] := by
  induction cs with
  | nil => rfl
  | cons d ds ih =>
    rw [List.mem_cons, not_or] at h
    rw [List.dropWhile_cons_of_pos (by simpa using Ne.symm h.1), ih h.2]

/-- A name without `<` stays as it is. -/
theorem stripArguments_of_not_mem {name : String} (h : '<' ∉ name.toList) :
    stripArguments name = (name, 0) := by
  simp only [stripArguments, splitArguments?, dropWhile_ne_of_not_mem h]
  rfl

end Bindery
