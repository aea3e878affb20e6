import Bindery.Json.Number

/-!
# Values

Whole JSON values, as far as a setting has to look at them. Arrays and objects are walked with the
open brackets on a stack, so they may nest to any depth; where a value counts, its depth is limited.

* `Datum`: a boolean, a string, or anything else.
* `scalar`: a value without parts.
* `walk`: the rest of an array or object.
* `datum`: any value.
-/

namespace Bindery.Json

/-- What a setting makes of a value. -/
inductive Datum where
  | bool (value : Bool)
  | string (value : String)
  | other
  deriving DecidableEq, Repr

/-- A value that is neither array nor object. -/
def scalar (care : Care) : Reader Datum
  | [] => .error .early
  | c :: cs =>
    if c = '\x22' then
      (quoted care cs).map fun s => (s.map (Datum.string ∘ String.ofList)).behind c
    else if c = 't' then word (.bool true) 't' ['r', 'u', 'e'] (c :: cs)
    else if c = 'f' then word (.bool false) 'f' ['a', 'l', 's', 'e'] (c :: cs)
    else if c = 'n' then word .other 'n' ['u', 'l', 'l'] (c :: cs)
    else if c = '-' ∨ c.isDigit then (readNumber care (c :: cs)).map (Step.map fun _ => .other)
    else .error (.malformed cs)

/-! ## Brackets -/

/-- The brackets of arrays and objects. -/
inductive Bracket where
  | square
  | curly
  deriving DecidableEq, Repr

namespace Bracket

/-- The bracket that a character opens. -/
def ofChar? : Char → Option Bracket
  | '[' => some square
  | '\x7b' => some curly
  | _ => none

/-- The character that closes a bracket. -/
def closing : Bracket → Char
  | square => ']'
  | curly => '\x7d'

end Bracket

/-! ## Objects and arrays -/

/-- The name of a member. -/
def memberName (care : Care) : Reader String := fun cs => do
  let f ← front cs
  if f.value ≠ '\x22' then .error (.malformed f.rest)
  let s ← f.next (quoted care)
  return s.map String.ofList

/-- The colon between the name of a member and its value. -/
def colon : Reader Unit := fun cs => do
  let f ← front cs
  if f.value ≠ ':' then .error (.malformed f.rest)
  return f.map fun _ => ()

/-- The greatest number of brackets that are open at once inside a value that counts. -/
def maxDepth : Nat := 125

/-- Whether one more bracket may be opened. -/
def hasRoom (care : Care) (opened : List Bracket) : Bool :=
  match care with
  | .full => opened.length < maxDepth
  | .light => true

/-- What is due on a walk: a value, or what follows an opening bracket or a value. -/
inductive Due where
  | value
  | entry (first : Bool)
  deriving DecidableEq, Repr

/-- How many things are due before another character is used up. -/
def Due.rank : Due → Nat
  | value => 0
  | entry _ => 1

/-- Walk on until every open bracket is closed. The text left is shorter than `whole`. -/
def walk (care : Care) (whole : List Char) (due : Due) (opened : List Bracket) (cs : List Char)
    (h : cs.length < whole.length) : Except Fault (Step Unit whole) :=
  match due, opened with
  | .value, opened =>
    match front cs with
    | .error e => .error e
    | .ok f =>
      have := f.shorter
      match Bracket.ofChar? f.value with
      | some b =>
        if hasRoom care opened then walk care whole (.entry true) (b :: opened) f.rest (by omega)
        else .error (.malformed f.rest)
      | none =>
        match scalar care (f.value :: f.rest) with
        | .error e => .error e
        | .ok s =>
          have := s.shorter
          have := f.length_cons_le
          walk care whole (.entry false) opened s.rest (by omega)
  | .entry _, [] => .ok ⟨(), cs, h⟩
  | .entry first, b :: opened =>
    match turn b.closing first cs with
    | .error e => .error e
    | .ok (.close rest shorter) => walk care whole (.entry false) opened rest (by omega)
    | .ok (.entry rest le) =>
      match b with
      | .square => walk care whole .value (b :: opened) rest (by omega)
      | .curly =>
        match memberName care rest with
        | .error e => .error e
        | .ok name =>
          have := name.shorter
          match colon name.rest with
          | .error e => .error e
          | .ok mark =>
            have := mark.shorter
            walk care whole .value (b :: opened) mark.rest (by omega)
termination_by 2 * cs.length + due.rank
decreasing_by all_goals simp only [Due.rank]; omega

/-- Any value. -/
def datum (care : Care) : Reader Datum := fun cs => do
  let f ← front cs
  match Bracket.ofChar? f.value with
  | some b =>
    let s ← walk care cs (.entry true) [b] f.rest f.shorter
    return s.map fun _ => .other
  | none =>
    let s ← scalar care (f.value :: f.rest)
    return s.widen f.length_cons_le

end Bindery.Json
