/-!
# Readers

A reader takes a value off the front of a text. What it leaves is shorter than what it was given,
so that readers can be repeated until the text is used up.

* `Fault`: why a text cannot be read; `lineBefore`: where that came to light.
* `Step`, `Reader`: one value read, and the rest.
* `front`, `word`, `turn`: the first character that counts, a fixed word, the way from one entry
  of an array or object to the next.
-/

namespace Bindery.Json

/-- Why a text cannot be read. -/
inductive Fault where
  /-- The text ends too early. -/
  | early
  /-- The text is not JSON, as a character shows; with the text after that character. -/
  | malformed (rest : List Char)
  /-- The text is JSON of the wrong shape, with an explanation if there is one. -/
  | shape (detail : Option String)
  deriving DecidableEq, Repr

/-- A value taken off the front of a text. -/
structure Step (α : Type) (cs : List Char) where
  value : α
  rest : List Char
  shorter : rest.length < cs.length

/-- Takes a value off the front of a text. -/
abbrev Reader (α : Type) := (cs : List Char) → Except Fault (Step α cs)

namespace Step

variable {α β : Type} {cs ds : List Char}

/-- The same step with another value. -/
def map (f : α → β) (s : Step α cs) : Step β cs := ⟨f s.value, s.rest, s.shorter⟩

/-- The step as one of a text that is no shorter. -/
def widen (h : cs.length ≤ ds.length) (s : Step α cs) : Step α ds :=
  ⟨s.value, s.rest, Nat.lt_of_lt_of_le s.shorter h⟩

/-- A step that takes one character. -/
def one (value : α) (c : Char) (cs : List Char) : Step α (c :: cs) :=
  ⟨value, cs, Nat.lt_succ_self _⟩

/-- A step after a character that has been taken off. -/
def behind (c : Char) (s : Step α cs) : Step α (c :: cs) := s.widen (Nat.le_succ _)

/-- Read on after a step. -/
def next (s : Step α cs) (read : Reader β) : Except Fault (Step β cs) :=
  (read s.rest).map (widen (Nat.le_of_lt s.shorter))

theorem length_cons_le (s : Step Char cs) : (s.value :: s.rest).length ≤ cs.length := s.shorter

/-- What follows the next character is shorter than the text. -/
theorem length_le_of_rest (s : Step α cs) {c : Char} {rest : List Char} (h : s.rest = c :: rest) :
    rest.length ≤ cs.length := by
  have := s.shorter
  rw [h, List.length_cons] at this
  omega

end Step

/-! ## Blanks and words -/

/-- The white space of JSON. -/
def isBlank (c : Char) : Bool := c = ' ' || c = '\t' || c = '\n' || c = '\r'

/-- The text from its first character on that is not blank. -/
def skipBlank (cs : List Char) : List Char := cs.dropWhile isBlank

theorem length_skipBlank_le (cs : List Char) : (skipBlank cs).length ≤ cs.length :=
  (List.dropWhile_sublist isBlank).length_le

theorem length_lt_of_skipBlank {cs rest : List Char} {c : Char} (h : skipBlank cs = c :: rest) :
    rest.length < cs.length := by
  have := length_skipBlank_le cs
  rw [h, List.length_cons] at this
  exact this

/-- The first character that is not blank. -/
def front : Reader Char := fun cs =>
  match h : skipBlank cs with
  | [] => .error .early
  | c :: rest => .ok ⟨c, rest, length_lt_of_skipBlank h⟩

/-- A fixed word, given by its first character and the others. -/
def word {α : Type} (value : α) : Char → List Char → Reader α
  | _, _, [] => .error .early
  | first, more, c :: cs =>
    if c = first then
      match more with
      | [] => .ok (Step.one value c cs)
      | second :: more => (word value second more cs).map (Step.behind c)
    else .error (.malformed cs)

/-! ## Entries -/

/-- What comes next between the brackets of an array or object. -/
inductive Turn (cs : List Char) where
  | close (rest : List Char) (shorter : rest.length < cs.length)
  | entry (rest : List Char) (le : rest.length ≤ cs.length)

/-- Go to the next entry, or past the closing bracket. Every entry but the first is preceded by a
comma. -/
def turn (closing : Char) (first : Bool) (cs : List Char) : Except Fault (Turn cs) := do
  let f ← front cs
  if f.value = closing then return .close f.rest f.shorter
  if first then return .entry (f.value :: f.rest) f.length_cons_le
  if f.value ≠ ',' then .error (.malformed f.rest)
  let g ← f.next front
  if g.value = closing then .error (.malformed g.rest)
  return .entry (g.value :: g.rest) g.length_cons_le

/-! ## Lines -/

/-- The number of line ends in a text. -/
def lineEnds (cs : List Char) : Nat := cs.count '\n'

/-- The line, counted from one, on which the part of a text before `rest` ends. -/
def lineBefore (text rest : List Char) : Nat := 1 + (lineEnds text - lineEnds rest)

end Bindery.Json
