import Bindery.Json.Reader
import Bindery.Text.Slice

/-!
# Quoted text

The text between the quotes of a JSON string, with its escapes.

* `Care`: whether what is read counts, or is only passed over.
* `hexQuad`, `escape`: the escapes.
* `quoted`: the text up to the closing quote.
-/

namespace Bindery.Json

/-- How closely a value is read. -/
inductive Care where
  /-- The value counts: its characters and numbers must exist. -/
  | full
  /-- The value is passed over: it only has to be well formed. -/
  | light
  deriving DecidableEq, Repr

/-! ## Escapes -/

/-- The character that an escape of one letter stands for. -/
def simpleEscape? : Char → Option Char
  | '\x22' => some '\x22'
  | '\\' => some '\\'
  | '/' => some '/'
  | 'b' => some '\x08'
  | 'f' => some '\x0c'
  | 'n' => some '\n'
  | 'r' => some '\r'
  | 't' => some '\t'
  | _ => none

/-- The value of a hexadecimal digit. -/
def hexValue? (c : Char) : Option Nat :=
  if '0' ≤ c ∧ c ≤ '9' then some (c.toNat - 0x30)
  else if 'a' ≤ c ∧ c ≤ 'f' then some (c.toNat - 0x57)
  else if 'A' ≤ c ∧ c ≤ 'F' then some (c.toNat - 0x37)
  else none

/-- The text after the characters that cover its first `n` bytes. -/
def dropBytes : Nat → List Char → List Char
  | 0, cs => cs
  | _, [] => []
  | n + 1, c :: cs => dropBytes (n + 1 - c.utf8Size) cs

theorem length_lt_four (a b c d : Char) (rest : List Char) :
    rest.length < (a :: b :: c :: d :: rest).length := by
  simp only [List.length_cons]
  omega

/-- The value of four hexadecimal digits. They are taken as four bytes, so what is cut off is told
from what is wrong by its bytes. -/
def hexQuad : Reader Nat := fun cs =>
  if Text.byteLength (cs.take 4) < 4 then .error .early
  else
    match cs with
    | a :: b :: c :: d :: rest =>
      match hexValue? a, hexValue? b, hexValue? c, hexValue? d with
      | some a, some b, some c, some d =>
        .ok ⟨((a * 16 + b) * 16 + c) * 16 + d, rest, length_lt_four ..⟩
      | _, _, _, _ => .error (.malformed (dropBytes 4 cs))
    | _ => .error (.malformed (dropBytes 4 cs))

/-- The first half of a pair of code units. -/
def isHighHalf (n : Nat) : Bool := 0xD800 ≤ n && n ≤ 0xDBFF

/-- The second half of a pair of code units. -/
def isLowHalf (n : Nat) : Bool := 0xDC00 ≤ n && n ≤ 0xDFFF

/-- The escape of the second half of a pair. -/
def lowHalf : Reader Nat
  | [] => .error .early
  | c :: cs =>
    if c ≠ '\\' then .error (.malformed cs)
    else
      match cs with
      | [] => .error .early
      | d :: ds =>
        if d ≠ 'u' then .error (.malformed ds)
        else
          (hexQuad ds).bind fun s =>
            if isLowHalf s.value then .ok ((s.behind d).behind c)
            else .error (.malformed s.rest)

/-- The character of a pair of code units. -/
def ofHalves (high low : Nat) : Char :=
  Char.ofNat (0x10000 + (high - 0xD800) * 0x400 + (low - 0xDC00))

/-- The character of an escape by number. A half without its other half is no character. -/
def numbered : Reader Char := fun cs => do
  let s ← hexQuad cs
  if isLowHalf s.value then .error (.malformed s.rest)
  if isHighHalf s.value then
    let low ← s.next lowHalf
    return low.map (ofHalves s.value)
  return s.map Char.ofNat

/-- The character of an escape, after the backslash. Where the text is passed over, any number
will do. -/
def escape (care : Care) : Reader Char
  | [] => .error .early
  | c :: cs =>
    match simpleEscape? c with
    | some d => .ok (Step.one d c cs)
    | none =>
      if c ≠ 'u' then .error (.malformed cs)
      else
        match care with
        | .full => (numbered cs).map (Step.behind c)
        | .light => (hexQuad cs).map fun s => (s.map Char.ofNat).behind c

/-! ## Text -/

/-- Whether a character must be escaped. -/
def isControl (c : Char) : Bool := c.toNat < 0x20

/-- The fault of a raw control character, which counts as taken off where the text counts. -/
def controlFault (care : Care) (c : Char) (rest : List Char) : Fault :=
  match care with
  | .full => .malformed rest
  | .light => .malformed (c :: rest)

/-- The text up to the closing quote. -/
def quoted (care : Care) : Reader (List Char)
  | [] => .error .early
  | c :: cs =>
    if c = '\x22' then .ok (Step.one [] c cs)
    else if c = '\\' then
      match escape care cs with
      | .error e => .error e
      | .ok s =>
        have : s.rest.length < cs.length := s.shorter
        (quoted care s.rest).map fun t =>
          ((t.map (s.value :: ·)).widen (Nat.le_of_lt this)).behind c
    else if isControl c then .error (controlFault care c cs)
    else (quoted care cs).map fun t => (t.map (c :: ·)).behind c
termination_by cs => cs.length

/-! ## Laws -/

/-- Text without quotes, backslashes and control characters stands for itself. -/
theorem quoted_of_plain (care : Care) {text : List Char}
    (h : ∀ c ∈ text, c ≠ '\x22' ∧ c ≠ '\\' ∧ isControl c = false) (rest : List Char) :
    ((quoted care (text ++ '\x22' :: rest)).toOption.map fun s => (s.value, s.rest)) =
      some (text, rest) := by
  induction text with
  | nil => rw [List.nil_append, quoted]; rfl
  | cons c text ih =>
    obtain ⟨hq, hb, hc⟩ := h c (by simp)
    have ih := ih fun d hd => h d (by simp [hd])
    rw [List.cons_append, quoted]
    simp only [hq, hb, hc, if_false, Bool.false_eq_true]
    revert ih
    cases quoted care (text ++ '\x22' :: rest) with
    | error e => simp [Except.toOption]
    | ok t =>
      simp only [Except.toOption, Except.map, Option.map_some, Option.some.injEq, Prod.mk.injEq]
      rintro ⟨hv, hr⟩
      exact ⟨by simp [Step.behind, Step.widen, Step.map, hv], hr⟩

end Bindery.Json
