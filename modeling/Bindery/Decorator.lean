import Bindery.Tree.Basic
import Bindery.Text.Blank

/-!
# Decorators

The decorators of a declaration, and the two that the binder understands.

* `Decorator.ofHeader`: the decorators of a header, in source order.
* `Decorator.requirements`: what `@Dependances([...])` adds to the dependencies.
* `Decorator.convertibleName?`: the name that `@Convertible("...")` gives to a class.
-/

namespace Bindery

/-- A decorator as it is written. -/
structure Decorator where
  name : String
  span : Span
  /-- The source text of each argument. -/
  arguments : List String
  deriving DecidableEq, Repr, Inhabited

/-- A dependency that a decorator declares. -/
structure Requirement where
  target : String
  strong : Bool
  deriving DecidableEq, Repr, Inhabited

namespace Decorator

/-- The expression of a decorator node. -/
def expression? (t : Tree) (decorator : Slot) : Option Slot :=
  match t.form? decorator with
  | some (.wrapper .decorator expression) => some expression
  | _ => none

/-- One decorator; none if the node or its expression is missing. -/
def read? (t : Tree) (decorator : Slot) : Option Decorator := do
  let span ← t.span? decorator
  let expression ← expression? t decorator
  match ← t.form? expression with
  | .call .plain callee _ arguments => return ⟨t.text callee, span, arguments.map t.text⟩
  | _ => return ⟨t.text expression, span, []⟩

/-- The decorators of a declaration, in source order. -/
def ofHeader (t : Tree) (header : Header) : List Decorator := header.decorators.filterMap (read? t)

/-! ## Declared dependencies -/

/-- The value of a literal `true`. -/
def isTrue (t : Tree) (i : Slot) : Bool :=
  match t.form? i with
  | some (.literal .trueWord) => true
  | _ => false

/-- Take in one property of an object entry; the last of each name counts. -/
def readProperty (t : Tree) (entry : Requirement) (property : Slot) : Requirement :=
  match t.form? property with
  | some (.assignment name value) =>
    match t.text name with
    | "type" => { entry with target := t.text value }
    | "strong" => { entry with strong := isTrue t value }
    | _ => entry
  | _ => entry

/-- An entry of the list: an object with `type` and `strong`, or a bare name, which is weak. -/
def requirement? (t : Tree) (element : Slot) : Option Requirement :=
  match t.form? element with
  | some (.objectLiteral properties) =>
    let entry := properties.foldl (readProperty t) ⟨"", false⟩
    if entry.target = "" then none else some entry
  | some (.identifier text) => some ⟨text, false⟩
  | _ => none

/-- The entries of one decorator, if it is `@Dependances` with a list. -/
def entries (t : Tree) (decorator : Slot) : List Requirement :=
  match (expression? t decorator).bind t.form? with
  | some (.call .plain callee _ (first :: _)) =>
    if t.text callee = "Dependances" then
      match t.form? first with
      | some (.arrayLiteral elements) => elements.filterMap (requirement? t)
      | _ => []
    else []
  | _ => []

/-- The dependencies that the decorators of a declaration add. -/
def requirements (t : Tree) (header : Header) : List Requirement :=
  header.decorators.flatMap (entries t)

/-! ## Convertible classes -/

/-- The quotes that may stand around a name: double, single and back quotes. -/
def quotes : List Char := ['\x22', '\x27', '\x60']

/-- The text between two quotes of one kind. -/
def between? (quote : Char) (cs : List Char) : Option (List Char) :=
  match cs with
  | [] => none
  | c :: rest =>
    if c = quote ∧ rest.getLast? = some quote then some rest.dropLast else none

/-- A text without blanks at its ends and without the quotes around it. -/
def withoutQuotes (s : String) : String :=
  let cs := Text.trim s.toList
  String.ofList ((quotes.findSome? fun q => between? q cs).getD cs)

/-- The name that the first `@Convertible` with an argument gives. -/
def convertibleName? (ds : List Decorator) : Option String :=
  (ds.filter (·.name = "Convertible")).findSome? fun d => d.arguments.head?.map withoutQuotes

end Decorator

end Bindery
