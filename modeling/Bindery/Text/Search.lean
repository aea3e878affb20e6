import Bindery.Text.Slice
import Bindery.Text.Blank
import Bindery.Text.Word

/-!
# Searching text

Byte offsets of pieces of text.

* `findWord?`: the first occurrence from an offset on that does not cut a word.
* `findLast?`: the last occurrence before an offset.
* `closing?`: the offset after the bracket that closes the one at an offset.
* `throughSemicolon?`: the offset after a semicolon that follows.
-/

namespace Bindery.Text

/-! ## Words -/

/-- An occurrence of `needle` at the front of `rest`, after the character `before`, cuts no word:
where the needle starts or ends inside a word, the text around it does not go on with that word. -/
def standsAlone (needle : List Char) (before : Option Char) (rest : List Char) : Bool :=
  !(needle.head?.any isWordChar && before.any isWordChar) &&
    !(needle.getLast?.any isWordChar && (rest.drop needle.length).head?.any isWordChar)

/-- Search from `offset` on. The first `covered` characters belong to an occurrence that cut a
word; the search goes on after it. -/
def findWordFrom (needle : List Char) (before : Option Char) (offset covered : Nat) :
    List Char → Option Nat
  | [] => if covered = 0 ∧ needle = [] then some offset else none
  | c :: cs =>
    if covered = 0 ∧ needle.isPrefixOf (c :: cs) then
      if standsAlone needle before (c :: cs) then some offset
      else findWordFrom needle (some c) (offset + c.utf8Size) (needle.length - 1) cs
    else findWordFrom needle (some c) (offset + c.utf8Size) (covered - 1) cs

/-- The first occurrence at or after byte `start` that cuts no word. Of two occurrences that share
characters the second is not looked at if the first has been turned down. -/
def findWord? (text needle : List Char) (start : Nat) : Option Span := do
  let (front, rest) ← cut? start text
  let offset ← findWordFrom needle front.getLast? start 0 rest
  return Span.ofLength offset (byteLength needle)

/-- The occurrence number `nth`, counting from zero; each search starts where the occurrence before
it ends. -/
def findNthWord? (text needle : List Char) : Nat → Nat → Option Span
  | 0, start => findWord? text needle start
  | nth + 1, start => do
    let s ← findWord? text needle start
    findNthWord? text needle nth s.stop

/-! ## Backwards -/

/-- The offset of the last occurrence of a needle that is not empty. -/
def lastOccurrence (needle : List Char) (offset : Nat) : List Char → Option Nat
  | [] => none
  | c :: cs =>
    (lastOccurrence needle (offset + c.utf8Size) cs).or
      (if needle.isPrefixOf (c :: cs) then some offset else none)

/-- The offset of the last occurrence that ends at or before byte `stop`. -/
def findLast? (text needle : List Char) (stop : Nat) : Option Nat := do
  lastOccurrence needle 0 (← take? stop text)

/-! ## Punctuation -/

/-- The bracket that closes an opening one. -/
def closingBracket? : Char → Option Char
  | '\x7b' => some '\x7d'
  | '(' => some ')'
  | '[' => some ']'
  | '<' => some '>'
  | _ => none

/-- The offset after the bracket that closes the outermost of `depth` open ones. -/
def closeFrom (opening closing : Char) (offset depth : Nat) : List Char → Option Nat
  | [] => none
  | c :: cs =>
    let after := offset + c.utf8Size
    if c = opening then closeFrom opening closing after (depth + 1) cs
    else if c = closing then
      if depth = 1 then some after else closeFrom opening closing after (depth - 1) cs
    else closeFrom opening closing after depth cs

/-- The offset after the bracket that closes the one at byte `start`. Brackets of other kinds are
not looked at. -/
def closing? (text : List Char) (start : Nat) : Option Nat := do
  let rest ← drop? start text
  let opening ← rest.head?
  closeFrom opening (← closingBracket? opening) start 0 rest

/-- The offset after a semicolon that follows byte `stop` after blanks, else `stop` itself. -/
def throughSemicolon? (text : List Char) (stop : Nat) : Option Nat := do
  let rest ← drop? stop text
  match rest.dropWhile isBlank with
  | ';' :: after => return stop + (byteLength rest - byteLength after)
  | _ => return stop

end Bindery.Text
