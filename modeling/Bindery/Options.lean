import Bindery.Scope.Builtins
import Bindery.Json.Value

/-!
# Binder options

The options shared by every unit of a project.

* `Options`: the four options, with their defaults.
* `Options.ofJson?`: the options written as a JSON object, or as an array of values in order.
-/

namespace Bindery

/-- Options shared by every unit of a project. -/
structure Options where
  /-- Log every attempt to resolve a name. -/
  debug : Bool := false
  /-- The object through which bundled packages are reached. -/
  packageAccessor : String := "npmCompilation"
  /-- Names added to the built-in set. -/
  builtins : List String := []
  /-- Names that never become dependencies. -/
  ignored : List String := []
  deriving DecidableEq, Repr, Inhabited

namespace Options

/-- The names that count as built in under these options. -/
def allBuiltins (o : Options) : Builtins := .withNames o.builtins

/-- A value that is missing leaves the default; one that is there has to be of the right shape. -/
def readField {α : Type} (read : Json → Option α) (default : α) : Option Json → Option α
  | none => some default
  | some value => read value

/-- Options from the values given for them. -/
def ofFields? (debug accessor builtins ignored : Option Json) : Option Options := do
  let base : Options := {}
  let debug ← readField Json.bool? base.debug debug
  let accessor ← readField Json.string? base.packageAccessor accessor
  let builtins ← readField Json.strings? base.builtins builtins
  let ignored ← readField Json.strings? base.ignored ignored
  return ⟨debug, accessor, builtins, ignored⟩

/-- Options as a JSON object, or as an array of at most four values. -/
def ofJson? : Json → Option Options
  | .object members =>
    let field := Json.member? members
    ofFields? (field "debug") (field "packageAccessor") (field "builtins")
      (field "ignoredDependencies")
  | .array items =>
    if items.length ≤ 4 then ofFields? items[0]? items[1]? items[2]? items[3]? else none
  | _ => none

end Options

end Bindery
