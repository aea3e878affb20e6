/-!
# JSON values

The values of a JSON document, as far as settings look at them.
-/

namespace Bindery

/-- A JSON value. No setting is a number, so all numbers are alike. -/
inductive Json where
  | null
  | bool (value : Bool)
  | number
  | string (value : String)
  | array (items : List Json)
  | object (members : List (String × Json))
  deriving Repr, Inhabited

namespace Json

/-- The value of a boolean. -/
def bool? : Json → Option Bool
  | bool b => some b
  | _ => none

/-- The value of a string. -/
def string? : Json → Option String
  | string s => some s
  | _ => none

/-- The values of an array of strings. -/
def strings? : Json → Option (List String)
  | array items => items.mapM string?
  | _ => none

/-- The value of the first member named `key`. -/
def member? (members : List (String × Json)) (key : String) : Option Json :=
  (members.find? (·.1 = key)).map Prod.snd

end Json

end Bindery
