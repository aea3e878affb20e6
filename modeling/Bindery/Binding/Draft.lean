import Bindery.Binding.Reference
import Bindery.Digest.Sha256

/-!
# Resolving references

A `Draft` is a symbol in the making. Each reference goes through `Draft.resolve`, which records its
place, decides once per name what the name means, and adds at most one dependency for it.

* `Meaning.replacement?`, `Meaning.target?`: what a name turns into.
* `Draft.interpret`: the decision about a name that comes up for the first time.
* `Draft.resolve`, `Draft.resolveAll`: one reference, or several in turn.
-/

namespace Bindery

/-- A reference that waits for an import, before its symbol has an id. -/
structure Deferral where
  name : String
  strong : Bool
  placed : Bool
  deriving DecidableEq, Repr, Inhabited

/-- A symbol in the making, and the references that wait for imports. -/
structure Draft where
  symbol : Symbol
  deferred : List Deferral := []

/-! ## What names turn into -/

/-- The text of a name that a bundled package exports. -/
def packageText (accessor uri name : String) : String :=
  accessor ++ "['" ++ Digest.contentKey uri ++ "']." ++ name

/-- What is written instead of a name; nothing for names that stand for themselves or wait. -/
def Meaning.replacement? (accessor name : String) : Meaning → Option String
  | sameUnit target => some target
  | imported binding => some binding.target
  | package uri => some (packageText accessor uri name)
  | qualified | waiting _ | ambient => none

/-- The target of a name and where it comes from; none for a name that waits. -/
def Meaning.target? (name : String) : Meaning → Option (String × Origin)
  | sameUnit target => some (target, .sameUnit)
  | imported binding => some (binding.target, .otherUnit binding.source)
  | package _ => some (name, .package)
  | qualified | ambient => some (name, .ambient)
  | waiting _ => none

namespace Context

/-- What is written instead of a name in this unit. -/
def replacement? (cx : Context) (name : String) : Option String :=
  (cx.scope.meaning name).replacement? cx.options.packageAccessor name

/-- The target that a name of a library unit stands for. Nothing is recorded. -/
def likelyTarget (cx : Context) (name : String) : String :=
  let name := (stripArguments name).1
  ((cx.scope.locals.get? name).or ((cx.scope.imports.get? name).map (·.target))).getD name

end Context

namespace Draft

/-- Record a place of a name. -/
def addLocation (d : Draft) (name : String) (s : Span) : Draft :=
  let e : Mentions := (d.symbol.table.get? name).getD {}
  { d with symbol.table := d.symbol.table.insert name { e with locations := e.locations.insert s } }

/-- Remember what a name was classified as. -/
def load (d : Draft) (name : String) (target : Option String) : Draft :=
  { d with symbol.loaded := d.symbol.loaded.insert name target }

/-- Write a replacement wherever a name stands, if there is one. -/
def replace (d : Draft) (name : String) : Option String → Draft
  | none => d
  | some text => { d with symbol := d.symbol.setReplacement name text }

/-- Write a replacement for a name that has places but no replacement yet. -/
def fillReplacement (d : Draft) (name : String) (replacement : Option String) : Draft :=
  match d.symbol.mentions? name with
  | some { replacement := none, .. } => d.replace name replacement
  | _ => d

/-- Decide what a name means that comes up for the first time. Tells the target, if the name has one
already. A reference to the symbol itself is replaced, and makes no dependency. -/
def interpret (cx : Context) (d : Draft) (r : Reference) : Draft × Option String :=
  match (cx.scope.meaning r.name).target? r.name with
  | none =>
    ({ d.load r.name none with
        deferred := d.deferred ++ [⟨r.name, r.strong, r.location?.isSome⟩] }, none)
  | some (target, origin) =>
    let d := (d.replace r.name (cx.replacement? r.name)).load r.name (some target)
    if target = d.symbol.qualified then (d, some target)
    else
      ({ d with symbol.edges := d.symbol.edges ++ [⟨target, origin, r.strong⟩] }, some target)

/-- Names that never refer to a declaration. -/
def isRejected (name : String) : Bool := name = "" || name = "constructor" || name = "toString"

/-- Record the place of a reference, if it has one. -/
def locate (d : Draft) (r : Reference) : Draft :=
  match r.location? with
  | some s => d.addLocation r.name s
  | none => d

/-- Resolve one reference, without type arguments in its name. -/
def resolveStripped (cx : Context) (d : Draft) (r : Reference) : Draft × Option String :=
  if r.name = d.symbol.qualified ∨ cx.scope.isBuiltin r.name then (d, none)
  else
    let d := d.locate r
    if r.name ∈ r.hidden ∨ r.name ∈ d.symbol.ignored then (d, none)
    else match d.symbol.loaded.get? r.name with
      | some target => (d.fillReplacement r.name (cx.replacement? r.name), target)
      | none => d.interpret cx r

/-- Resolve one reference. Tells the target, if the reference leads to one now. -/
def resolve (cx : Context) (d : Draft) (r : Reference) : Draft × Option String :=
  if isRejected r.name then (d, none) else d.resolveStripped cx r.strip

/-- Resolve references in turn. -/
def resolveAll (cx : Context) (d : Draft) (rs : List Reference) : Draft :=
  rs.foldl (fun d r => (d.resolve cx r).1) d

/-- Resolve references in turn, and tell the first target that comes up. -/
def resolveFirst (cx : Context) (d : Draft) (rs : List Reference) : Draft × Option String :=
  rs.foldl (fun (state : Draft × Option String) r =>
    let (d, target) := state.1.resolve cx r
    (d, state.2.or target)) (d, none)

end Draft

end Bindery
