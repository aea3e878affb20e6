import Bindery.Symbol.Basic
import Bindery.Text.Edit

/-!
# Rendering symbols

The source text of a declaration with every resolved reference replaced. It is made anew each time
from the table of the symbol, so replacements that were found late show up.

* `Symbol.editsIn`: the edits inside a range, counted from its start.
* `Symbol.render`: a range of the declaration after these edits.
* `Symbol.compiled`, `Symbol.constructorText`, `Symbol.memberText?`: the ranges asked for.
-/

namespace Bindery.Symbol

/-- The places to replace, with what to write there: the names, in order, then the modifiers. -/
def replacements (s : Symbol) (withModifiers : Bool) : List ModifierChange :=
  let names := s.table.values.flatMap fun e =>
    match e.replacement with
    | none => []
    | some text => e.locations.toList.map fun l => ⟨l, text⟩
  let modifiers := (s.classInfo.map fun c => c.modifierChanges.values).getD []
  if withModifiers then names ++ modifiers else names

/-- The edits of what lies inside a range, counted from its start. -/
def editsIn (s : Symbol) (range : Span) (withModifiers : Bool) : List Edit :=
  (s.replacements withModifiers).filterMap fun r =>
    if range.Contains r.span then
      (r.span.relativeTo? range.start).map fun relative => ⟨relative, r.replacement⟩
    else none

/-- A range of the declaration with its references replaced; empty if the range lies outside. -/
def render (s : Symbol) (range : Span) (withModifiers : Bool) : String :=
  match (range.relativeTo? s.span.start).bind (Text.sliceString? s.content) with
  | none => ""
  | some text => (Edit.applyPossible text (s.editsIn range withModifiers)).1

/-- The declaration with its references replaced. -/
def compiled (s : Symbol) : String := s.render s.span false

/-- The body of the constructor with references and modifiers replaced; empty without one. -/
def constructorText (s : Symbol) : String :=
  match s.classInfo.bind ClassInfo.constructorBody with
  | some body => s.render body true
  | none => ""

/-- A member with references and modifiers replaced. -/
def memberText? (s : Symbol) (name : String) : Option String := do
  let span ← (← s.classInfo).memberSpan? name
  return s.render span true

end Bindery.Symbol
