import Bindery.Json.Datum

/-!
# Records

Values of known shape. A record is written as an object, or as an array of its fields in order;
fields that are not given keep the values they have.

* `mismatch`: the fault of a value of the wrong shape.
* `readString`, `readStrings`, `readOptional`: values of single fields.
* `RecordField`, `readRecord`: a record.
* `readAll`: a whole text.
-/

namespace Bindery.Json

/-- Finds a value of the wrong shape, unless it is not even JSON. Arrays and objects are not looked
into. -/
def mismatch {α : Type} : Reader α := fun cs => do
  let f ← front cs
  if (Bracket.ofChar? f.value).isNone then
    let _ ← scalar .full (f.value :: f.rest)
  .error (.shape none)

/-- A string. -/
def readString : Reader String := fun cs => do
  let f ← front cs
  if f.value = '\x22' then
    let s ← f.next (quoted .full)
    return s.map String.ofList
  else mismatch cs

/-- A value that may be `null`. -/
def readOptional {α : Type} (read : Reader α) : Reader (Option α) := fun cs => do
  let f ← front cs
  if f.value = 'n' then
    let s ← word none 'n' ['u', 'l', 'l'] (f.value :: f.rest)
    return s.widen f.length_cons_le
  else
    let s ← read cs
    return s.map some

/-! ## Arrays -/

/-- The entries of an array up to its closing bracket. -/
def entries {α : Type} (read : Reader α) (first : Bool) (cs : List Char) :
    Except Fault (Step (List α) cs) :=
  match turn ']' first cs with
  | .error e => .error e
  | .ok (.close rest shorter) => .ok ⟨[], rest, shorter⟩
  | .ok (.entry rest le) =>
    match read rest with
    | .error e => .error e
    | .ok s =>
      have := s.shorter
      (entries read false s.rest).map fun t => (t.map (s.value :: ·)).widen (by omega)
termination_by cs.length

/-- An array of strings. -/
def readStrings : Reader (List String) := fun cs => do
  let f ← front cs
  if f.value = '[' then f.next (entries readString true) else mismatch cs

/-! ## Records -/

/-- A field of a record: its name, and how its value is read into the record. -/
structure RecordField (σ : Type) where
  name : String
  read : σ → Reader σ

/-- The fields of a record written as an object. Members of other names are passed over, and no
field is given twice. -/
def members {σ : Type} (fields : List (RecordField σ)) (given : List String) (first : Bool)
    (state : σ) (cs : List Char) : Except Fault (Step σ cs) :=
  match turn '\x7d' first cs with
  | .error e => .error e
  | .ok (.close rest shorter) => .ok ⟨state, rest, shorter⟩
  | .ok (.entry rest le) =>
    match memberName .full rest with
    | .error e => .error e
    | .ok name =>
      have := name.shorter
      if name.value ∈ given then .error (.shape none)
      else
        match name.next colon with
        | .error e => .error e
        | .ok mark =>
          have := mark.shorter
          match fields.find? (·.name = name.value) with
          | none =>
            match datum .light mark.rest with
            | .error e => .error e
            | .ok s =>
              have := s.shorter
              (members fields given false state s.rest).map (Step.widen (by omega))
          | some field =>
            match field.read state mark.rest with
            | .error e => .error e
            | .ok s =>
              have := s.shorter
              (members fields (field.name :: given) false s.value s.rest).map
                (Step.widen (by omega))
termination_by cs.length

/-- The end of an array whose every entry has been read. -/
def arrayEnd {σ : Type} (state : σ) : Reader σ := fun cs => do
  let f ← front cs
  if f.value = ']' then return f.map fun _ => state
  else if f.value = ',' then .error (.malformed ((skipBlank f.rest).drop 1))
  else .error (.malformed f.rest)

/-- The fields of a record written as an array. There may be fewer entries than fields, but not
more. -/
def positions {σ : Type} : List (RecordField σ) → Bool → σ → Reader σ
  | [], _, state => arrayEnd state
  | field :: fields, first, state => fun cs =>
    match turn ']' first cs with
    | .error e => .error e
    | .ok (.close rest shorter) => .ok ⟨state, rest, shorter⟩
    | .ok (.entry rest le) =>
      match field.read state rest with
      | .error e => .error e
      | .ok s =>
        have := s.shorter
        (positions fields false s.value s.rest).map (Step.widen (by omega))

/-- A record, starting from the values that its fields have when they are not given. -/
def readRecord {σ : Type} (fields : List (RecordField σ)) (state : σ) : Reader σ := fun cs => do
  let f ← front cs
  match Bracket.ofChar? f.value with
  | some .square => f.next (positions fields true state)
  | some .curly => f.next (members fields [] true state)
  | none => mismatch cs

/-! ## Whole texts -/

/-- Why a text as a whole cannot be read. -/
inductive ReadError where
  /-- The text ends too early. -/
  | early
  /-- The text is not JSON, as shows on a line. -/
  | malformed (line : Nat)
  /-- The text is JSON of the wrong shape, with an explanation if there is one. -/
  | shape (detail : Option String)
  deriving DecidableEq, Repr

/-- A fault, with the line on which it lies. -/
def Fault.locate (text : List Char) : Fault → ReadError
  | .early => .early
  | .malformed rest => .malformed (lineBefore text rest)
  | .shape detail => .shape detail

/-- Read a text of which nothing but blanks is left afterwards. -/
def readAll {α : Type} (read : Reader α) (text : List Char) : Except ReadError α :=
  match read text with
  | .error e => .error (e.locate text)
  | .ok s =>
    match skipBlank s.rest with
    | [] => .ok s.value
    | _ :: rest => .error (.malformed (lineBefore text rest))

end Bindery.Json
