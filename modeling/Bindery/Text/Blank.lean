/-!
# White space

The characters of the Unicode property `White_Space`, and text without them at its ends.

* `isBlank`: membership in the property.
* `trim`, `trimStart`: text without blanks at both ends, or at the front.
-/

namespace Bindery.Text

/-- The ranges of the property `White_Space`, both ends included. -/
def blankRanges : List (Nat × Nat) :=
  [(0x9, 0xD), (0x20, 0x20), (0x85, 0x85), (0xA0, 0xA0), (0x1680, 0x1680), (0x2000, 0x200A),
    (0x2028, 0x2029), (0x202F, 0x202F), (0x205F, 0x205F), (0x3000, 0x3000)]

/-- A character of the property `White_Space`. -/
def isBlank (c : Char) : Bool := blankRanges.any fun r => r.1 ≤ c.toNat && c.toNat ≤ r.2

/-- Text from its first character that is not blank on. -/
def trimStart (cs : List Char) : List Char := cs.dropWhile isBlank

/-- Text without the blanks at its two ends. -/
def trim (cs : List Char) : List Char := (trimStart (trimStart cs).reverse).reverse

/-- A string without the blanks at its two ends. -/
def trimString (s : String) : String := String.ofList (trim s.toList)

/-- The small letter of each capital of `A` to `Z`. -/
def lowerAscii (cs : List Char) : List Char := cs.map Char.toLower

/-- The form under which a setting word is looked up: trimmed, in small letters. The words hold no
`k`, the one letter of `a` to `z` that is also the small form of a character outside ASCII, so
folding `A` to `Z` recognises every spelling. -/
def settingWord (s : String) : String := String.ofList (lowerAscii (trim s.toList))

end Bindery.Text
