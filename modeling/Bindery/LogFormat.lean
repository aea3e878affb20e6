import Bindery.Text.Blank

/-!
# Log formats

The shapes in which log lines can be written, and the words that name them.
-/

namespace Bindery

/-- How log lines are laid out. -/
inductive LogFormat where
  | text
  | tree
  | json
  deriving DecidableEq, Repr

/-- The format of a word, whatever its case and the blanks around it; flat text unless the word
names another. -/
def LogFormat.ofString (word : String) : LogFormat :=
  match Text.settingWord word with
  | "tree" => .tree
  | "json" => .json
  | _ => .text

end Bindery
