import Bindery.Text.Span
import Bindery.Text.Template

/-!
# Diagnostics

What the binder reports about the units it reads. Reporting never stops it.

* `Diagnostic`: a message with its place, category and code.
* `Problem`: the five things the binder reports, with their codes and wording.
-/

namespace Bindery

/-- How a diagnostic is meant. -/
inductive Category where
  | warning
  | error
  | suggestion
  /-- An internal inconsistency, not shown to the user. -/
  | message
  deriving DecidableEq, Repr

/-- A message about a place in a file. -/
structure Diagnostic where
  file : String
  start : Nat
  length : Nat
  text : String
  category : Category
  code : Nat
  deriving DecidableEq, Repr

/-- What the binder reports. -/
inductive Problem where
  /-- A property or getter has no type. -/
  | missingPropertyType (member : String)
  /-- A reference to `inner` stands inside the span that is replaced for `outer`. -/
  | locationCollision (inner outer : String)
  /-- A class names several base classes, of which `used` is the first. -/
  | multipleBases (used : String)
  /-- `shadowing` takes the short name of `earlier`. -/
  | duplicateShortName (name earlier shadowing : String)
  /-- A late reference of `symbol` to `name` has lost its entry. -/
  | missingEntry (name symbol : String)
  deriving DecidableEq, Repr

namespace Problem

/-- The number that identifies the kind of problem. -/
def code : Problem → Nat
  | missingPropertyType _ => 1001
  | locationCollision .. => 1002
  | multipleBases _ => 1003
  | duplicateShortName .. => 1004
  | missingEntry .. => 9001

/-- The wording, with numbered places for the arguments. -/
def template : Problem → String
  | missingPropertyType _ => "You must define a type for the prop \x7b0\x7d"
  | locationCollision .. =>
    "Ambiguous dependency location: '\x7b0\x7d' overlaps the replacement for '\x7b1\x7d'"
  | multipleBases _ =>
    "A class can only extend a single class; '\x7b0\x7d' is used and the others are ignored"
  | duplicateShortName .. =>
    "The name '\x7b0\x7d' is already declared by '\x7b1\x7d'; '\x7b2\x7d' now shadows it"
  | missingEntry .. =>
    "For the admin: no location entry exists for dependency '\x7b0\x7d' of '\x7b1\x7d'"

/-- The arguments of the wording, in order. -/
def arguments : Problem → List String
  | missingPropertyType member => [member]
  | locationCollision inner outer => [inner, outer]
  | multipleBases used => [used]
  | duplicateShortName name earlier shadowing => [name, earlier, shadowing]
  | missingEntry name symbol => [name, symbol]

/-- What the user reads. -/
def message (p : Problem) : String := Text.fill p.template p.arguments

end Problem

namespace Diagnostic

/-- A message of the given category about a span. -/
def atSpan (category : Category) (file : String) (span : Span) (text : String) (code : Nat) :
    Diagnostic :=
  ⟨file, span.start, span.length, text, category, code⟩

/-- An error about a span. -/
def error : String → Span → String → Nat → Diagnostic := atSpan .error

/-- A warning about a span. -/
def warning : String → Span → String → Nat → Diagnostic := atSpan .warning

/-- A message about an inconsistency inside the binder; it has no place. -/
def internal (file text : String) : Diagnostic := atSpan .message file ⟨0, 0⟩ text 9001

/-- The category in which a problem is reported. -/
def ofProblem (file : String) (span : Span) (p : Problem) : Diagnostic :=
  match p with
  | .missingPropertyType _ | .multipleBases _ => error file span p.message p.code
  | .locationCollision .. | .duplicateShortName .. => warning file span p.message p.code
  | .missingEntry .. => internal file p.message

/-- The offset after the last byte. -/
def stop (d : Diagnostic) : Nat := d.start + d.length

/-- Whether the diagnostic is about the binder itself. -/
def isInternal (d : Diagnostic) : Bool := d.category = .message

end Diagnostic

end Bindery
