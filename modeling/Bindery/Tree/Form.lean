import Bindery.Text.Span

/-!
# Forms of syntax nodes

The categories of nodes that the binder tells apart, each with its children. Categories that carry
the same children share one constructor and differ in a `…Kind`.

* `Slot`: the place of one child.
* `Form`: a category with its children, in source order (`Form.slots`).
* `Form.name`, `Form.header?`: the name and the header of a declaration.
-/

namespace Bindery

/-- The place of a child: empty, or the index of a node, which need not exist. -/
abbrev Slot := Option Nat

/-! ## Words -/

/-- The modifiers of declarations. -/
inductive Modifier where
  | exported
  | defaultExport
  | declared
  | abstract
  | static
  | readonly
  | publicAccess
  | protectedAccess
  | privateAccess
  | async
  | override
  deriving DecidableEq, Repr

namespace Modifier

/-- Every modifier, in the order of their flags. -/
def all : List Modifier :=
  [exported, defaultExport, declared, abstract, static, readonly, publicAccess, protectedAccess,
    privateAccess, async, override]

/-- The modifier as it is written. -/
def keyword : Modifier → String
  | exported => "export"
  | defaultExport => "default"
  | declared => "declare"
  | abstract => "abstract"
  | static => "static"
  | readonly => "readonly"
  | publicAccess => "public"
  | protectedAccess => "protected"
  | privateAccess => "private"
  | async => "async"
  | override => "override"

/-- The modifier that a word stands for. -/
def ofKeyword? (word : String) : Option Modifier := all.find? (·.keyword = word)

/-- The number of the flag of a modifier. -/
def position (m : Modifier) : Nat := all.idxOf m

/-- Modifiers as one number, with a bit for each flag. -/
def mask (ms : List Modifier) : Nat := ms.foldl (fun bits m => bits ||| 1 <<< m.position) 0

theorem ofKeyword?_keyword (m : Modifier) : ofKeyword? m.keyword = some m := by
  cases m <;> decide

end Modifier

/-- What a heritage clause says about its types. -/
inductive HeritageKind where
  | extending
  | implementing
  deriving DecidableEq, Repr

/-- The keyword that opens a heritage clause. -/
def HeritageKind.keyword : HeritageKind → String
  | extending => "extends"
  | implementing => "implements"

/-- The kinds of literals. -/
inductive LiteralKind where
  | string
  | number
  | trueWord
  | falseWord
  | null
  | undefined
  | template
  | regularExpression
  deriving DecidableEq, Repr

/-- The keyword types. -/
inductive KeywordType where
  | any
  | unknown
  | never
  | void
  | undefined
  | null
  | boolean
  | number
  | string
  | object
  | symbol
  | bigint
  | thisType
  deriving DecidableEq, Repr

namespace KeywordType

/-- Every keyword type. -/
def all : List KeywordType :=
  [any, unknown, never, void, undefined, null, boolean, number, string, object, symbol, bigint,
    thisType]

/-- The type as it is written. -/
def keyword : KeywordType → String
  | any => "any"
  | unknown => "unknown"
  | never => "never"
  | void => "void"
  | undefined => "undefined"
  | null => "null"
  | boolean => "boolean"
  | number => "number"
  | string => "string"
  | object => "object"
  | symbol => "symbol"
  | bigint => "bigint"
  | thisType => "this"

/-- The keyword type that a word stands for. -/
def ofKeyword? (word : String) : Option KeywordType := all.find? (·.keyword = word)

theorem ofKeyword?_keyword (k : KeywordType) : ofKeyword? k.keyword = some k := by
  cases k <;> decide

end KeywordType

/-! ## Shared parts -/

/-- What stands before a declaration: decorators, modifiers, and the bodies of its doc comments. -/
structure Header where
  decorators : List Slot := []
  modifiers : List Slot := []
  docs : List String := []
  deriving DecidableEq, Repr, Inhabited

/-- The children of a class or interface. -/
structure ClassParts where
  header : Header := {}
  name : Slot := none
  typeParameters : List Slot := []
  heritage : List Slot := []
  members : List Slot := []
  deriving DecidableEq, Repr, Inhabited

/-- The children of anything that can be called. Constructors and nameless functions have no name,
signatures no body. -/
structure FunctionParts where
  header : Header := {}
  name : Slot := none
  typeParameters : List Slot := []
  parameters : List Slot := []
  returnType : Slot := none
  body : Slot := none
  deriving DecidableEq, Repr, Inhabited

/-- A name with a type and an initial value, any of which may be missing. -/
structure FieldParts where
  name : Slot := none
  annotation : Slot := none
  initializer : Slot := none
  deriving DecidableEq, Repr, Inhabited

/-- The declarations made of members. -/
inductive ClassKind where
  | classDeclaration
  | interfaceDeclaration
  deriving DecidableEq, Repr

/-- The things that can be called. -/
inductive FunctionKind where
  | declaration
  | method
  | constructor
  | getter
  | setter
  | arrow
  | expression
  deriving DecidableEq, Repr

/-- The fields that have a header. -/
inductive FieldKind where
  | parameter
  | property
  deriving DecidableEq, Repr

/-- Calls, with and without `new`. -/
inductive CallKind where
  | plain
  | construction
  deriving DecidableEq, Repr

/-- The nodes that only hold one expression. -/
inductive WrapperKind where
  | decorator
  | expressionStatement
  | returnStatement
  | parenthesized
  deriving DecidableEq, Repr

/-- The types made of alternatives or of parts that hold together. -/
inductive CombinationKind where
  | union
  | intersection
  deriving DecidableEq, Repr

/-! ## Forms -/

/-- The category of a node and its children. -/
inductive Form where
  | sourceFile (statements : List Slot)
  | identifier (text : String)
  | qualifiedName (left right : Slot)
  | modifier (modifier : Modifier)
  | wrapper (kind : WrapperKind) (expression : Slot)
  | heritage (kind : HeritageKind) (types : List Slot)
  | typeParameter (name constraint fallback : Slot)
  | field (kind : FieldKind) (header : Header) (parts : FieldParts)
  | classLike (kind : ClassKind) (parts : ClassParts)
  | enumeration (header : Header) (name : Slot) (members : List Slot)
  | enumMember (name initializer : Slot)
  | function (kind : FunctionKind) (parts : FunctionParts)
  | typeAlias (header : Header) (name : Slot) (typeParameters : List Slot) (type : Slot)
  | variableStatement (header : Header) (declarations : List Slot)
  | variableDeclaration (parts : FieldParts)
  | propertySignature (header : Header) (name annotation : Slot)
  | methodSignature (header : Header) (name : Slot) (typeParameters parameters : List Slot)
      (returnType : Slot)
  | block (statements : List Slot)
  | ifStatement (condition whenTrue whenFalse : Slot)
  | thisKeyword
  | superKeyword
  | literal (kind : LiteralKind)
  | access (expression name : Slot)
  | element (expression argument : Slot)
  | call (kind : CallKind) (callee : Slot) (typeArguments arguments : List Slot)
  | instantiation (expression : Slot) (typeArguments : List Slot)
  | binary (left right : Slot)
  | unary (operand : Slot)
  | conditional (condition whenTrue whenFalse : Slot)
  | cast (expression type : Slot)
  | objectLiteral (properties : List Slot)
  | assignment (name initializer : Slot)
  | arrayLiteral (elements : List Slot)
  | keywordType (keyword : KeywordType)
  | literalType (inner : Slot)
  | typeReference (name : Slot) (typeArguments : List Slot)
  | arrayType (item : Slot)
  | combination (kind : CombinationKind) (types : List Slot)
  | typeLiteral (members : List Slot)
  | functionType (typeParameters parameters : List Slot) (returnType : Slot)
  | tupleType (elements : List Slot)
  | parenthesizedType (type : Slot)
  | typeQuery (name : Slot)
  | indexedAccess (object index : Slot)
  deriving DecidableEq, Repr, Inhabited

/-! ## Children -/

/-- The nodes of a header. -/
def Header.slots (h : Header) : List Slot := h.decorators ++ h.modifiers

/-- The children of a field, without those of its header. -/
def FieldParts.slots (f : FieldParts) : List Slot := [f.name, f.annotation, f.initializer]

namespace Form

/-- The places of the children, in source order. -/
def slots : Form → List Slot
  | sourceFile statements | block statements => statements
  | identifier _ | modifier _ | thisKeyword | superKeyword | literal _ | keywordType _ => []
  | qualifiedName left right | binary left right => [left, right]
  | wrapper _ expression => [expression]
  | heritage _ types | combination _ types => types
  | typeParameter name constraint fallback => [name, constraint, fallback]
  | field _ header parts => header.slots ++ parts.slots
  | classLike _ c =>
    c.header.slots ++ c.name :: c.typeParameters ++ c.heritage ++ c.members
  | enumeration header name members => header.slots ++ name :: members
  | enumMember name initializer | assignment name initializer => [name, initializer]
  | function _ f =>
    f.header.slots ++ f.name :: f.typeParameters ++ f.parameters ++ [f.returnType, f.body]
  | typeAlias header name typeParameters type => header.slots ++ name :: typeParameters ++ [type]
  | variableStatement header declarations => header.slots ++ declarations
  | variableDeclaration parts => parts.slots
  | propertySignature header name annotation => header.slots ++ [name, annotation]
  | methodSignature header name typeParameters parameters returnType =>
    header.slots ++ name :: typeParameters ++ parameters ++ [returnType]
  | ifStatement condition whenTrue whenFalse | conditional condition whenTrue whenFalse =>
    [condition, whenTrue, whenFalse]
  | access expression name => [expression, name]
  | element expression argument => [expression, argument]
  | call _ callee typeArguments arguments => callee :: typeArguments ++ arguments
  | instantiation expression typeArguments => expression :: typeArguments
  | unary operand => [operand]
  | cast expression type => [expression, type]
  | objectLiteral properties => properties
  | arrayLiteral elements | tupleType elements => elements
  | literalType inner => [inner]
  | typeReference name typeArguments => name :: typeArguments
  | arrayType item => [item]
  | typeLiteral members => members
  | functionType typeParameters parameters returnType =>
    typeParameters ++ parameters ++ [returnType]
  | parenthesizedType type => [type]
  | typeQuery name => [name]
  | indexedAccess object index => [object, index]

/-- The children that are not empty. -/
def children (f : Form) : List Nat := f.slots.filterMap id

/-- The header of a declaration. -/
def header? : Form → Option Header
  | classLike _ c => some c.header
  | function _ f => some f.header
  | field _ header _ | enumeration header _ _ | typeAlias header _ _ _ | variableStatement header _
  | propertySignature header _ _ | methodSignature header _ _ _ _ => some header
  | _ => none

/-- The place of the name of whatever binds one. -/
def name : Form → Slot
  | classLike _ c => c.name
  | function _ f => f.name
  | field _ _ parts | variableDeclaration parts => parts.name
  | typeParameter name _ _ | enumeration _ name _ | enumMember name _ | typeAlias _ name _ _
  | propertySignature _ name _ | methodSignature _ name _ _ _ | assignment name _ => name
  | _ => none

/-- The categories that can stand where a type is expected. -/
def isType : Form → Bool
  | keywordType _ | literalType _ | typeReference _ _ | arrayType _ | combination _ _
  | typeLiteral _ | functionType _ _ _ | tupleType _ | parenthesizedType _ | typeQuery _
  | indexedAccess _ _ | instantiation _ _ => true
  | _ => false

/-- A name is one of the children. -/
theorem name_mem_slots {f : Form} {i : Nat} (h : f.name = some i) : some i ∈ f.slots := by
  cases f <;> simp_all [name, slots, FieldParts.slots]

end Form

end Bindery
