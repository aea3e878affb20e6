import Bindery.Binding.Draft
import Bindery.Diagnostic

/-!
# Members of classes

What the members of a class or interface add to its data, and how their references are read.

* `Context.recordMember`: one member, with what is wrong about it.
* `Context.memberReferences`: the references inside a member.
-/

namespace Bindery.Context

variable (cx : Context)

/-- The names of type parameters. -/
def parameterNames (typeParameters : List Slot) : List String :=
  typeParameters.filterMap cx.tree.declaredName?

/-- A diagnostic about a span of this unit. -/
def diagnose (span : Span) (p : Problem) : Diagnostic := .ofProblem cx.scope.uri span p

/-- The `private` among the modifiers, to be replaced by `protected`. -/
def privateMark? (header : Header) : Option ModifierChange :=
  ((cx.tree.findModifier? header.modifiers .privateAccess).bind fun i => cx.tree.span? (some i)).map
    fun s => ⟨s, Modifier.protectedAccess.keyword⟩

/-- Replace the `private` among the modifiers, if it is there. -/
def markPrivate (header : Header) (c : ClassInfo) : ClassInfo :=
  match cx.privateMark? header with
  | some t => c.addModifierChange t
  | none => c

/-- What a member declares. -/
inductive MemberShape where
  | constructor (body : Option Span)
  /-- A property; `mustHaveType` if it has to say its type. -/
  | property (accessor : AccessorKind) (hasType mustHaveType : Bool) (header : Header)
  | method (typeParameters : List Slot) (isAbstract : Bool) (header : Header)

/-- What the node of a member declares, if it is one. Interfaces may leave types out, and they have
no modifiers to replace. -/
def memberShape? (i : Nat) : Form → Option MemberShape
  | .function .constructor f => some (.constructor (cx.tree.span? f.body))
  | .field .property header parts =>
    some (.property .field parts.annotation.isSome true header)
  | .propertySignature _ _ annotation => some (.property .field annotation.isSome false {})
  | .function .getter f => some (.property .getter f.returnType.isSome true f.header)
  | .function .setter f => some (.property .setter true false f.header)
  | .function .method f =>
    some (.method f.typeParameters (.abstract ∈ cx.tree.modifiers (some i)) f.header)
  | .methodSignature _ _ typeParameters _ _ => some (.method typeParameters true {})
  | _ => none

/-- Add a member to the data of its class. -/
def recordMember (c : ClassInfo) (i : Nat) : ClassInfo × List Diagnostic :=
  match cx.tree.node? (some i) with
  | none => (c, [])
  | some n =>
    let name := (cx.tree.declaredName? (some i)).getD ""
    let nameSpan := (cx.tree.span? n.form.name).getD n.span
    let isStatic := .static ∈ cx.tree.modifiers (some i)
    match cx.memberShape? i n.form with
    | none => (c, [])
    | some (.constructor body) => ({ c with constructorBody := body.or c.constructorBody }, [])
    | some (.property accessor hasType mustHaveType header) =>
      ((cx.markPrivate header c).addProperty ⟨name, n.span, nameSpan, isStatic, accessor, hasType⟩,
        if mustHaveType && !hasType then [cx.diagnose n.span (.missingPropertyType name)] else [])
    | some (.method typeParameters isAbstract header) =>
      ((cx.markPrivate header c).addMethod
        ⟨name, n.span, nameSpan, cx.parameterNames typeParameters, isStatic, isAbstract⟩, [])

/-- Add several members in turn. -/
def recordMembers (c : ClassInfo) (members : List Nat) : ClassInfo × List Diagnostic :=
  members.foldl (fun (state : ClassInfo × List Diagnostic) i =>
    let (c, ds) := cx.recordMember state.1 i
    (c, state.2 ++ ds)) (c, [])

/-! ## References -/

/-- The type parameters that a member adds to those of its class. -/
def memberTypeParameters (i : Nat) : List String :=
  match cx.tree.form? (some i) with
  | some (.function .method f) => cx.parameterNames f.typeParameters
  | some (.methodSignature _ _ typeParameters _ _) => cx.parameterNames typeParameters
  | _ => []

/-- The value of a static property is needed when the class is defined. -/
def isStrongMember (i : Nat) : Bool :=
  match cx.tree.form? (some i) with
  | some (.field .property _ _) => .static ∈ cx.tree.modifiers (some i)
  | _ => false

/-- References at which type parameters hide declarations of the same name. -/
def shade (hidden : List String) (rs : List Reference) : List Reference :=
  rs.map fun r => { r with hidden }

/-- The references inside a member of a class with the given type parameters. -/
def memberReferences (classParameters : List String) (i : Nat) : List Reference :=
  shade (classParameters ++ cx.memberTypeParameters i) (cx.below (cx.isStrongMember i) i)

end Bindery.Context
