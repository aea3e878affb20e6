import Bindery.Json.Double
import Bindery.Json.Quoted

/-!
# Numbers

The numbers of JSON. No setting is a number, so the value of one is never used; but a number that
counts must not be out of range. It is taken as a whole number of 64 bits times a power of ten, and
both factors are rounded to doubles before they are multiplied.

* `Numeral`: a whole number and the power of ten that it is scaled by.
* `Numeral.ofDigits`: the number with given digits before and after its point.
* `Numeral.isInRange`: whether the product of the factors is finite.
* `readNumber`: reads one.
-/

namespace Bindery.Json

/-- The digit that a character is. -/
def digitValue (c : Char) : Nat := c.toNat - 0x30

/-- The number that digits stand for. -/
def digitsValue (ds : List Char) : Nat := ds.foldl (fun n d => n * 10 + digitValue d) 0

/-- A number without its sign: `significand` times ten to the power of `scale`. -/
structure Numeral where
  significand : Nat
  scale : Int
  deriving DecidableEq, Repr

namespace Numeral

/-- Significands have 64 bits. -/
def limit : Nat := Nat.pow 2 64

/-- A significand with digits appended, as long as it stays below the limit, and the digits from the
first on that does not fit. -/
def absorb (n : Nat) : List Char → Nat × List Char
  | [] => (n, [])
  | d :: ds =>
    if n * 10 + digitValue d < limit then absorb (n * 10 + digitValue d) ds else (n, d :: ds)

/-- The number with the digits `front` before its point and `back` after it. Digits that do not fit
count as zeros. When digits before the point have been left out, those after it still follow the
significand as long as they fit. -/
def ofDigits (front back : List Char) : Numeral :=
  let (whole, zeros) := absorb 0 front
  let (significand, lost) := absorb whole back
  ⟨significand, zeros.length + lost.length - back.length⟩

/-- Whether the nearest doubles of the significand and of the power of ten have a finite product.
Ten to the power of 308 is the last power with a nearest double; a scale below zero makes no number
too great. -/
def isInRange (n : Numeral) : Bool :=
  if 308 < n.scale then n.significand = 0
  else Double.isFinite (Double.nearest n.significand * Double.nearest (Nat.pow 10 n.scale.toNat))

end Numeral

/-! ## Reading -/

/-- The fault of a number that is cut off. Where it is passed over, this is one character like any
other that does not belong there. -/
def cutOff : Care → Fault
  | .full => .early
  | .light => .malformed []

theorem length_afterDigits_lt (c : Char) (cs : List Char) :
    (cs.dropWhile Char.isDigit).length < (c :: cs).length :=
  Nat.lt_succ_of_le (List.dropWhile_sublist Char.isDigit).length_le

/-- At least one digit. -/
def digits (care : Care) : Reader (List Char)
  | [] => .error (cutOff care)
  | c :: cs =>
    if c.isDigit then
      .ok ⟨c :: cs.takeWhile Char.isDigit, cs.dropWhile Char.isDigit, length_afterDigits_lt c cs⟩
    else .error (.malformed cs)

/-- The digits before the point. None follows a leading zero. -/
def whole (care : Care) : Reader (List Char) := fun cs => do
  let s ← digits care cs
  match s.value, cs with
  | '0' :: _ :: _, _ :: _ :: rest => .error (.malformed rest)
  | _, _ => return s

/-- The digits before the point, with those after it if there is one. -/
def fraction (care : Care) : Reader Numeral := fun cs => do
  let s ← whole care cs
  match h : s.rest with
  | '.' :: rest =>
    let t ← digits care rest
    return (t.map (Numeral.ofDigits s.value)).widen (s.length_le_of_rest h)
  | _ => return s.map (Numeral.ofDigits · [])

/-- The power of ten after the letter `e`. -/
def power (care : Care) : Reader Int
  | '-' :: cs => (digits care cs).map fun s => (s.map fun ds => -(digitsValue ds : Int)).behind '-'
  | '+' :: cs => (digits care cs).map fun s => (s.map fun ds => (digitsValue ds : Int)).behind '+'
  | cs => (digits care cs).map fun s => s.map fun ds => (digitsValue ds : Int)

/-- A number without its sign. -/
def numeral (care : Care) : Reader Numeral := fun cs => do
  let s ← fraction care cs
  match h : s.rest with
  | c :: rest =>
    if c = 'e' ∨ c = 'E' then
      let t ← power care rest
      return (t.map fun e => { s.value with scale := s.value.scale + e }).widen
        (s.length_le_of_rest h)
    else return s
  | [] => return s

/-- A number, whose sign is not kept. -/
def signed (care : Care) : Reader Numeral
  | '-' :: cs => (numeral care cs).map (Step.behind '-')
  | cs => numeral care cs

/-- A number. Where it counts it must be in range. -/
def readNumber (care : Care) : Reader Unit := fun cs => do
  let s ← signed care cs
  if care = .full ∧ s.value.isInRange = false then .error (.malformed s.rest)
  return s.map fun _ => ()

/-! ## Laws -/

/-- Digits and what follows them make up the text. -/
theorem digits_eq_ok {care : Care} {cs : List Char} {s : Step (List Char) cs}
    (h : digits care cs = .ok s) : s.value ++ s.rest = cs ∧ ∀ c ∈ s.value, c.isDigit = true := by
  cases cs with
  | nil => simp [digits] at h
  | cons c cs =>
    simp only [digits] at h
    split at h
    · rename_i hc
      obtain rfl := Except.ok.inj h
      refine ⟨by simp [List.takeWhile_append_dropWhile], fun d hd => ?_⟩
      rcases List.mem_cons.1 hd with rfl | hd
      · exact hc
      · have := List.all_takeWhile (p := Char.isDigit) (l := cs)
        exact List.all_eq_true.1 this d hd
    · simp at h

end Bindery.Json
