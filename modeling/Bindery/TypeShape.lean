import Bindery.Tree.Basic

/-!
# Shapes of type expressions

A `TypeShape` is what name resolution sees of a type expression: every name it mentions with the
span to replace, and groups of shapes where a type is made of others. Nothing is resolved here.

* `TypeShape.ofNode?`: the shape of a node; none if the node is no type or lies too deep.
* `TypeShape.named`: every single type in a shape, outer ones first.
* `TypeShape.references`: those of them that are names.
-/

namespace Bindery

/-- What a single type is. -/
inductive TypeWordKind where
  /-- A name such as `Foo`, `Ns.Foo` or `typeof Foo`. -/
  | reference
  /-- A keyword such as `string`. -/
  | keyword
  /-- A literal such as `42`. -/
  | literal
  deriving DecidableEq, Repr, Inhabited

/-- A single type without its type arguments. -/
structure TypeWord where
  /-- The name, keyword or literal as it is written. -/
  value : String
  /-- The whole type, arguments and array brackets included. -/
  span : Span
  /-- Where the name ends. -/
  nameStop : Nat
  isArray : Bool
  kind : TypeWordKind
  deriving DecidableEq, Repr, Inhabited

/-- The span of the name alone. -/
def TypeWord.nameSpan (w : TypeWord) : Span := ⟨w.span.start, w.nameStop⟩

/-- The shape of a type expression. -/
inductive TypeShape where
  /-- One type and its type arguments. -/
  | single (word : TypeWord) (arguments : List TypeShape)
  /-- The member types of an object type or a tuple. -/
  | members (parts : List TypeShape)
  /-- The parameter types of a function, then its result type. -/
  | signature (parts : List TypeShape)
  /-- The parts of a union or an intersection. -/
  | union (parts : List TypeShape)
  deriving Repr, Inhabited

namespace TypeShape

/-- Type expressions that nest deeper have no shape. -/
def maxDepth : Nat := 256

/-- The word of a single type. -/
def word? : TypeShape → Option TypeWord
  | single w _ => some w
  | _ => none

/-- A keyword or literal type. -/
def leaf (value : String) (span : Span) (kind : TypeWordKind) : TypeShape :=
  single ⟨value, span, span.stop, false, kind⟩ []

/-- A single type that turns out to be the element of an array. -/
def inArray (span : Span) : TypeShape → TypeShape
  | single w arguments => single { w with isArray := true, span := span } arguments
  | shape => shape

/-! ## From a tree -/

mutual

/-- The shape of a node that lies `depth` levels below the type expression. The first number bounds
the recursion. -/
def build (t : Tree) : Nat → Nat → Slot → Option TypeShape
  | 0, _, _ => none
  | fuel + 1, depth, i =>
    if maxDepth < depth then none
    else match t.node? i with
      | none => none
      | some n => match n.form with
        | .typeReference name arguments | .instantiation name arguments =>
          (t.span? name).map fun s =>
            single ⟨t.text name, n.span, s.stop, false, .reference⟩
              (arguments.filterMap (build t fuel (depth + 1)))
        | .typeQuery name =>
          (t.span? name).map fun s => single ⟨t.text name, s, s.stop, false, .reference⟩ []
        | .keywordType k => some (leaf k.keyword n.span .keyword)
        | .literalType _ => some (leaf (t.text i) n.span .literal)
        | .arrayType item => (build t fuel (depth + 1) item).map (inArray n.span)
        | .parenthesizedType inner | .indexedAccess inner _ => build t fuel (depth + 1) inner
        | .combination _ types => some (union (types.filterMap (build t fuel (depth + 1))))
        | .tupleType elements => some (members (elements.filterMap (build t fuel (depth + 1))))
        | .typeLiteral ms => some (members (ms.flatMap (memberShapes t fuel depth)))
        | .functionType _ parameters result =>
          some (signature (parameters.flatMap (memberShapes t fuel depth) ++
            (build t fuel (depth + 1) result).toList))
        | _ => none

/-- The types that a member of an object type or a parameter declares. -/
def memberShapes (t : Tree) : Nat → Nat → Slot → List TypeShape
  | 0, _, _ => []
  | fuel + 1, depth, i =>
    match t.form? i with
    | some (.propertySignature _ _ annotation) => (build t fuel (depth + 1) annotation).toList
    | some (.field .parameter _ parts) => (build t fuel (depth + 1) parts.annotation).toList
    | some (.methodSignature _ _ _ parameters result) =>
      [signature (parameters.flatMap (memberShapes t fuel (depth + 1)) ++
        (build t fuel (depth + 2) result).toList)]
    | _ => []

end

/-- The shape of a type expression. No path down a tree without cycles has more nodes than the tree,
so the bound on the recursion is never what ends it. -/
def ofNode? (t : Tree) (i : Slot) : Option TypeShape := build t (t.size + maxDepth + 2) 0 i

/-! ## Names -/

mutual

/-- Every single type in a shape: a type before its arguments, parts in order. -/
def named : TypeShape → List TypeWord
  | single w arguments => w :: namedAll arguments
  | members parts | signature parts | union parts => namedAll parts

/-- The single types of each shape in turn. -/
def namedAll : List TypeShape → List TypeWord
  | [] => []
  | s :: ss => named s ++ namedAll ss

end

/-- The single types that are references, in the same order. -/
def references (s : TypeShape) : List TypeWord := s.named.filter (·.kind = .reference)

theorem namedAll_eq_flatMap (ss : List TypeShape) : namedAll ss = ss.flatMap named := by
  induction ss with
  | nil => rfl
  | cons s ss ih => rw [namedAll, ih, List.flatMap_cons]

end TypeShape

end Bindery
