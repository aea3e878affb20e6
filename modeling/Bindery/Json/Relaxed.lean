import Bindery.Text.Blank

/-!
# Relaxed JSON

Settings files may hold comments, and commas before closing brackets. Both are taken out before the
text is read as JSON. Strings are left alone, and so is every line end, so that what is read stays
on its line.

* `stripComments`: the text without comments.
* `dropTrailingCommas`: the text without commas before closing brackets.
* `plain`: both.
* `count_stripComments`, `count_dropTrailingCommas`: line ends are kept.
-/

namespace Bindery.Json

/-! ## Strings -/

/-- Where a character stands: among the tokens, in a string, or after a backslash in a string. -/
inductive Place where
  | outside
  | inside
  | escaped
  deriving DecidableEq, Repr

/-- Where the next character stands. -/
def Place.step : Place → Char → Place
  | outside, c => if c = '\x22' then inside else outside
  | inside, c => if c = '\\' then escaped else if c = '\x22' then outside else inside
  | escaped, _ => inside

/-! ## Comments -/

/-- Where a character stands, in a text with comments. -/
inductive Region where
  | code (place : Place)
  | lineComment
  | blockComment
  deriving DecidableEq, Repr

/-- The text without comments, from a region on. -/
def stripFrom : Region → List Char → List Char
  | _, [] => []
  | .code .outside, '/' :: '/' :: cs => stripFrom .lineComment cs
  | .code .outside, '/' :: '*' :: cs => stripFrom .blockComment cs
  | .code place, c :: cs => c :: stripFrom (.code (place.step c)) cs
  | .lineComment, c :: cs =>
    if c = '\n' then c :: stripFrom (.code .outside) cs else stripFrom .lineComment cs
  | .blockComment, '*' :: '/' :: cs => stripFrom (.code .outside) cs
  | .blockComment, c :: cs =>
    if c = '\n' then c :: stripFrom .blockComment cs else stripFrom .blockComment cs

/-- The text without its comments. A comment runs from two slashes to the end of the line, or from
a slash and a star to a star and a slash; one that is not closed runs to the end of the text. -/
def stripComments (cs : List Char) : List Char := stripFrom (.code .outside) cs

/-! ## Trailing commas -/

/-- Whether the first character that is not blank closes an array or object. -/
def closesNext (cs : List Char) : Bool :=
  match cs.find? (!Text.isBlank ·) with
  | some c => c = '\x7d' || c = ']'
  | none => false

/-- The text without trailing commas, from a place on. -/
def dropFrom : Place → List Char → List Char
  | _, [] => []
  | place, c :: cs =>
    let rest := dropFrom (place.step c) cs
    if place = .outside ∧ c = ',' ∧ closesNext cs then rest else c :: rest

/-- The text without the commas that nothing but blanks separates from a closing bracket. -/
def dropTrailingCommas (cs : List Char) : List Char := dropFrom .outside cs

/-- The JSON in a text with comments and trailing commas. -/
def plain (cs : List Char) : List Char := dropTrailingCommas (stripComments cs)

/-! ## Laws -/

theorem count_stripFrom (region : Region) (cs : List Char) :
    (stripFrom region cs).count '\n' = cs.count '\n' := by
  fun_induction stripFrom region cs with
  | case1 => rfl
  | case2 cs ih => simpa using ih
  | case3 cs ih => simpa using ih
  | case4 place c cs _ _ ih => simp [List.count_cons, ih]
  | case5 cs ih => simp [ih]
  | case6 c cs hc ih => simp [ih, hc]
  | case7 cs ih => simpa using ih
  | case8 cs _ ih => simp [ih]
  | case9 c cs _ hc ih => simp [ih, hc]

/-- Comments go, but the line ends in them stay. -/
theorem count_stripComments (cs : List Char) :
    (stripComments cs).count '\n' = cs.count '\n' := count_stripFrom _ cs

theorem count_dropFrom {x : Char} (hx : x ≠ ',') (place : Place) (cs : List Char) :
    (dropFrom place cs).count x = cs.count x := by
  induction cs generalizing place with
  | nil => simp [dropFrom]
  | cons c cs ih =>
    simp only [dropFrom]
    split
    · rename_i h
      have : c ≠ x := fun e => hx (e ▸ h.2.1)
      rw [ih, List.count_cons_of_ne this]
    · simp [List.count_cons, ih]

/-- Nothing but commas goes with the trailing commas. -/
theorem count_dropTrailingCommas {x : Char} (hx : x ≠ ',') (cs : List Char) :
    (dropTrailingCommas cs).count x = cs.count x := count_dropFrom hx _ cs

end Bindery.Json
