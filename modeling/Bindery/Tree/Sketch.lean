import Bindery.Text.Search
import Bindery.Tree.Basic

/-!
# Sketching trees

Trees made by hand, one node at a time, over a given source text. Leaves are found in the text; the
span of any other node follows from those of its children and from the punctuation around them.

* `Sketch.locate`: the span of a form, by a rule for each category.
* `Step`, `Step.run`: one step of a sketch, and what it answers.
* `Sketch.finish`: the file around the statements, with every parent linked.
-/

namespace Bindery

/-- Why a step of a sketch fails. -/
inductive SketchError where
  /-- The text does not occur at or after the offset. -/
  | notFound (text : String) (start : Nat)
  /-- The text does not occur before the offset. -/
  | notFoundBefore (text : String) (stop : Nat)
  /-- There is no opening bracket at the offset, or nothing closes it. -/
  | unbalanced (offset : Nat)
  /-- The offset is not between two characters of the text. -/
  | badOffset (offset : Nat)
  /-- No such node has been made. -/
  | missingNode (node : Slot)
  /-- The form needs at least one child. -/
  | noChildren
  /-- There is no rule for the span of such a form. -/
  | noRule
  deriving DecidableEq, Repr

namespace Sketch

/-- The result of a step that may fail. -/
abbrev Result (α : Type) := Except SketchError α

/-- A value that has to be there. -/
def orFail {α : Type} (e : SketchError) : Option α → Result α
  | some a => .ok a
  | none => .error e

section Rules

variable (t : Tree)

/-! ## Places in the text -/

/-- The first occurrence of a text that cuts no word, from an offset on. -/
def findAfter (text : String) (start : Nat) : Result Span :=
  orFail (.notFound text start) (Text.findWord? t.source.toList text.toList start)

/-- An occurrence of a text that cuts no word, counting from zero. -/
def find (text : String) (nth : Nat) : Result Span :=
  orFail (.notFound text 0) (Text.findNthWord? t.source.toList text.toList nth 0)

/-- The last occurrence of a text before an offset. -/
def lastBefore (text : String) (stop : Nat) : Result Nat :=
  orFail (.notFoundBefore text stop) (Text.findLast? t.source.toList text.toList stop)

/-- The offset after the bracket that closes the one at `start`. -/
def closing (start : Nat) : Result Nat :=
  orFail (.unbalanced start) (Text.closing? t.source.toList start)

/-- The offset after a semicolon that follows, or `stop` itself. -/
def throughSemicolon (stop : Nat) : Result Nat :=
  orFail (.badOffset stop) (Text.throughSemicolon? t.source.toList stop)

/-! ## Places of children -/

/-- The span of a node that has been made. -/
def spanOf (i : Slot) : Result Span := orFail (.missingNode i) (t.span? i)

/-- The spans of the children that are not empty. -/
def presentSpans (is : List Slot) : Result (List Span) := (is.filter Option.isSome).mapM (spanOf t)

/-- The greatest end of the children, else `fallback`. -/
def endOf (is : List Slot) (fallback : Nat) : Result Nat := do
  return ((← presentSpans t is).map Span.stop).max?.getD fallback

/-- The least span around the children; the empty one at zero if there are none. -/
def cover (is : List Slot) : Result Span := do
  match ← presentSpans t is with
  | [] => return ⟨0, 0⟩
  | s :: ss => return ss.foldl Span.cover s

/-- Where the first child starts. -/
def startOfFirst : List Slot → Result Nat
  | [] => .error .noChildren
  | i :: _ => return (← spanOf t i).start

/-- The least of `start` and the starts of decorators and modifiers. -/
def withHeader (header : Header) (start : Nat) : Result Nat := do
  return ((← header.slots.mapM (spanOf t)).map Span.start).foldl min start

/-- Where a declaration starts whose keyword comes before `anchor`. -/
def startOfDeclaration (header : Header) (keyword : String) (anchor : Nat) : Result Nat := do
  withHeader t header (← lastBefore t keyword anchor)

/-- The end of the type arguments after `stop`, if there are any. -/
def throughTypeArguments (stop : Nat) (arguments : List Slot) : Result Nat :=
  if arguments.isEmpty then .ok stop
  else do closing t (← findAfter t "<" stop).start

/-- The end of a call: its closing parenthesis, or the last argument if that reaches further. -/
def endOfCall (callee : Slot) (typeArguments arguments : List Slot) : Result Nat := do
  let stop ← throughTypeArguments t (← spanOf t callee).stop typeArguments
  let close ← closing t (← findAfter t "(" stop).start
  return max close (← endOf t arguments 0)

/-- The end of a function: that of its body, else of its signature and the semicolon after it. -/
def endOfFunction (f : FunctionParts) (fallback : Nat) : Result Nat := do
  if f.body.isSome then return (← spanOf t f.body).stop
  let stop := max (← endOf t f.parameters fallback) (← endOf t [f.returnType] fallback)
  throughSemicolon t stop

/-- From the bracket before the first child to the one that closes it. -/
def bracketed (opening : String) (is : List Slot) : Result Span := do
  let start ← lastBefore t opening (← startOfFirst t is)
  return ⟨start, ← closing t start⟩

/-- From the parenthesis before the parameters, or before the result, to the end of the result. -/
def arrowSpan (parameters : List Slot) (result : Slot) : Result Span := do
  let anchor ← startOfFirst t (parameters ++ [result])
  return ⟨← lastBefore t "(" anchor, (← spanOf t result).stop⟩

/-- A class or interface: up to the brace that closes the first one after its head. -/
def classSpan (keyword : String) (c : ClassParts) : Result Span := do
  let name ← spanOf t c.name
  let start ← startOfDeclaration t c.header keyword name.start
  let head := max (← endOf t c.typeParameters name.stop) (← endOf t c.heritage name.stop)
  return ⟨start, ← closing t (← findAfter t "\x7b" head).start⟩

/-- A function that a keyword introduces. -/
def keywordFunction (keyword : String) (f : FunctionParts) : Result Span := do
  let name ← spanOf t f.name
  return ⟨← startOfDeclaration t f.header keyword name.start, ← endOfFunction t f name.stop⟩

/-- The last of the keywords of variables before `first`, else `first` itself. -/
def variableKeyword (first : Nat) : Result Nat := do
  let front ← orFail (.badOffset first) (Text.take? first t.source.toList)
  let found := ["const", "let", "var"].filterMap fun k => Text.lastOccurrence k.toList 0 front
  return found.max?.getD first

/-! ## Spans of forms -/

/-- The span of a form over the nodes made so far. -/
def locate : Form → Result Span
  | .qualifiedName left right | .access left right => do
    return ⟨(← spanOf t left).start, (← spanOf t right).stop⟩
  | .typeReference name arguments | .instantiation name arguments => do
    let s ← spanOf t name
    return ⟨s.start, ← throughTypeArguments t s.stop arguments⟩
  | .arrayType item => do
    let s ← spanOf t item
    return ⟨s.start, (← findAfter t "]" s.stop).stop⟩
  | .combination _ types => cover t types
  | .literalType inner => spanOf t inner
  | .typeLiteral children | .objectLiteral children => bracketed t "\x7b" children
  | .arrayLiteral children => bracketed t "[" children
  | .propertySignature _ name annotation => do
    let start := (← spanOf t name).start
    return ⟨start, ← throughSemicolon t (← endOf t [name, annotation] start)⟩
  | .functionType _ parameters result => arrowSpan t parameters result
  | .function .arrow f => arrowSpan t f.parameters f.body
  | .typeParameter name constraint _ => do
    let start := (← spanOf t name).start
    return ⟨start, ← endOf t [name, constraint] start⟩
  | .call kind callee typeArguments arguments => do
    let s ← spanOf t callee
    let start ← match kind with
      | .plain => pure s.start
      | .construction => lastBefore t "new" s.start
    return ⟨start, ← endOfCall t callee typeArguments arguments⟩
  | .binary left right => cover t [left, right]
  | .assignment name initializer | .enumMember name initializer => cover t [name, initializer]
  | .variableDeclaration parts | .field .parameter _ parts => cover t parts.slots
  | .wrapper .expressionStatement expression => do
    let s ← spanOf t expression
    return ⟨s.start, ← throughSemicolon t s.stop⟩
  | .wrapper .returnStatement expression => do
    let s ← spanOf t expression
    return ⟨← lastBefore t "return" s.start, ← throughSemicolon t s.stop⟩
  | .wrapper .decorator expression => do
    let s ← spanOf t expression
    return ⟨← lastBefore t "@" s.start, s.stop⟩
  | .variableStatement header declarations => do
    let first ← if declarations.isEmpty then pure 0 else startOfFirst t declarations
    let start ← withHeader t header (← variableKeyword t first)
    return ⟨start, ← throughSemicolon t (← endOf t declarations first)⟩
  | .heritage kind types => do
    let first ← startOfFirst t types
    return ⟨← lastBefore t kind.keyword first, ← endOf t types first⟩
  | .classLike .classDeclaration c => classSpan t "class" c
  | .classLike .interfaceDeclaration c => classSpan t "interface" c
  | .enumeration header name _ => do
    let s ← spanOf t name
    let start ← startOfDeclaration t header "enum" s.start
    return ⟨start, ← closing t (← findAfter t "\x7b" s.stop).start⟩
  | .typeAlias header name _ type => do
    let s ← spanOf t name
    let start ← startOfDeclaration t header "type" s.start
    return ⟨start, ← throughSemicolon t (← spanOf t type).stop⟩
  | .function .declaration f => keywordFunction t "function" f
  | .function .getter f => keywordFunction t "get" f
  | .function .setter f => keywordFunction t "set" f
  | .function .method f => do
    let name ← spanOf t f.name
    return ⟨← withHeader t f.header name.start, ← endOfFunction t f name.stop⟩
  | .function .constructor f => do
    let body ← spanOf t f.body
    return ⟨← startOfDeclaration t f.header "constructor" body.start, body.stop⟩
  | .field .property header parts => do
    let name ← spanOf t parts.name
    let start ← withHeader t header name.start
    return ⟨start, ← throughSemicolon t (← endOf t parts.slots name.stop)⟩
  | _ => .error .noRule

end Rules

end Sketch

/-! ## Steps -/

/-- One step of a sketch. -/
inductive Step where
  /-- Ask for an occurrence of a text. -/
  | find (text : String) (nth : Nat)
  /-- Ask for the first occurrence of a text from an offset on. -/
  | findAfter (text : String) (start : Nat)
  /-- Ask for the span of a node. -/
  | spanOf (node : Slot)
  /-- A node whose span is given. -/
  | place (span : Span) (form : Form)
  /-- An identifier whose span is given. -/
  | identifierAt (span : Span)
  /-- A leaf at an occurrence of its text. -/
  | leaf (form : Form) (text : String) (nth : Nat)
  /-- A leaf at the first occurrence of its text from an offset on. -/
  | leafFrom (form : Form) (text : String) (start : Nat)
  /-- A type without arguments, at an occurrence of its name. -/
  | simpleType (name : String) (nth : Nat)
  /-- A chain of names with dots between them; `this` and `super` become keywords. -/
  | chain (dotted : String) (nth : Nat)
  /-- A block, from the first brace after an offset on. -/
  | block (start : Nat) (statements : List Slot)
  /-- A node whose span follows from its children. -/
  | compose (form : Form)
  deriving Repr

/-- What a step answers. -/
inductive StepAnswer where
  | span (span : Span)
  | node (index : Nat)
  deriving DecidableEq, Repr

namespace Step

/-- An identifier at an occurrence of its text. -/
def identifier (text : String) (nth : Nat) : Step := leaf (.identifier text) text nth

/-- An identifier at the first occurrence of its text from an offset on. -/
def identifierFrom (text : String) (start : Nat) : Step := leafFrom (.identifier text) text start

/-- A modifier at an occurrence of its keyword. -/
def modifier (m : Modifier) (nth : Nat) : Step := leaf (.modifier m) m.keyword nth

/-- `this` at an occurrence. -/
def thisKeyword (nth : Nat) : Step := leaf .thisKeyword "this" nth

/-- `super` at an occurrence. -/
def superKeyword (nth : Nat) : Step := leaf .superKeyword "super" nth

/-- A keyword type at an occurrence. -/
def keywordType (k : KeywordType) (nth : Nat) : Step := leaf (.keywordType k) k.keyword nth

end Step

namespace Sketch

/-- The identifier at a span, without text if the span cannot be sliced. -/
def addIdentifier (t : Tree) (s : Span) : Tree × Nat :=
  t.add s (.identifier ((Text.sliceString? t.source s).getD ""))

/-- The node of one name of a chain. -/
def addName (t : Tree) (s : Span) (name : List Char) : Tree × Nat :=
  if name = "this".toList then t.add s .thisKeyword
  else if name = "super".toList then t.add s .superKeyword
  else addIdentifier t s

/-- Add the remaining names of a chain, the first of them at `offset`, each as a member of what
stands before it. -/
def addChain (t : Tree) (current offset : Nat) : List (List Char) → Result (Tree × Nat)
  | [] => .ok (t, current)
  | name :: names => do
    let s := Span.ofLength offset (Text.byteLength name)
    let (t, i) := addName t s name
    let form := Form.access (some current) (some i)
    let (t, j) := t.add (← locate t form) form
    addChain t j (s.stop + 1) names

/-- Add a whole chain. -/
def addDotted (t : Tree) (start : Nat) : List (List Char) → Result (Tree × Nat)
  | [] => .error .noChildren
  | name :: names =>
    let s := Span.ofLength start (Text.byteLength name)
    let (t, i) := addName t s name
    addChain t i (s.stop + 1) names

/-- Add a form where its rule puts it. -/
def compose (t : Tree) (form : Form) : Result (Tree × Nat) := do
  return t.add (← locate t form) form

end Sketch

open Sketch in
/-- The tree after a step, and its answer. -/
def Step.run (t : Tree) : Step → Sketch.Result (Tree × StepAnswer)
  | find text nth => do return (t, .span (← Sketch.find t text nth))
  | findAfter text start => do return (t, .span (← Sketch.findAfter t text start))
  | spanOf node => do return (t, .span (← Sketch.spanOf t node))
  | place span form => answer (.ok (t.add span form))
  | identifierAt span => answer (.ok (addIdentifier t span))
  | leaf form text nth => answer do return t.add (← Sketch.find t text nth) form
  | leafFrom form text start => answer do return t.add (← Sketch.findAfter t text start) form
  | simpleType name nth => answer do
    let (t, i) := t.add (← Sketch.find t name nth) (.identifier name)
    Sketch.compose t (.typeReference (some i) [])
  | chain dotted nth => answer do
    let whole ← Sketch.find t dotted nth
    addDotted t whole.start (dotted.toList.splitOn '.')
  | block start statements => answer do
    let opening := (← Sketch.findAfter t "\x7b" start).start
    return t.add ⟨opening, ← closing t opening⟩ (.block statements)
  | compose form => answer (Sketch.compose t form)
where
  /-- The answer of a step that makes a node. -/
  answer (r : Sketch.Result (Tree × Nat)) : Sketch.Result (Tree × StepAnswer) :=
    r.map fun (t, i) => (t, .node i)

/-- The file around the statements, spanning the whole text, with every parent linked. -/
def Sketch.finish (t : Tree) (statements : List Slot) : Tree :=
  let (t, root) := t.add ⟨0, Text.byteLength t.source.toList⟩ (.sourceFile statements)
  t.link root

end Bindery
