/-!
# Message templates

A template names its arguments by number in braces. Filling it in replaces the arguments one after
the other, the first one first, each in the text that the earlier ones left: a placeholder that an
argument brings along is filled in too if its turn is still to come.

* `replaceAll`: every occurrence of a piece of text, from left to right.
* `fill`: a template with its arguments.
-/

namespace Bindery.Text

/-- Replace `needle` from left to right; `covered` characters still belong to the occurrence
replaced last. -/
def replaceFrom (needle replacement : List Char) : Nat → List Char → List Char
  | _, [] => []
  | covered + 1, _ :: cs => replaceFrom needle replacement covered cs
  | 0, c :: cs =>
    if needle.isPrefixOf (c :: cs) then
      replacement ++ replaceFrom needle replacement (needle.length - 1) cs
    else c :: replaceFrom needle replacement 0 cs

/-- Replace every occurrence of a piece of text that is not empty. -/
def replaceAll (needle replacement text : List Char) : List Char :=
  replaceFrom needle replacement 0 text

/-- The characters that stand for argument `i`. -/
def placeholder (i : Nat) : List Char := '\x7b' :: (toString i).toList ++ ['\x7d']

/-- Replace the arguments in turn, counting from `i`. -/
def fillFrom (i : Nat) (text : List Char) : List String → List Char
  | [] => text
  | arg :: args => fillFrom (i + 1) (replaceAll (placeholder i) arg.toList text) args

/-- A template with its arguments in place. -/
def fill (template : String) (args : List String) : String :=
  String.ofList (fillFrom 0 template.toList args)

theorem replaceFrom_drop (needle replacement : List Char) (n : Nat) (cs : List Char) :
    replaceFrom needle replacement n cs = replaceFrom needle replacement 0 (cs.drop n) := by
  induction n generalizing cs with
  | zero => rfl
  | succ n ih =>
    cases cs with
    | nil => rfl
    | cons c cs => simpa [replaceFrom] using ih cs

/-- What follows an occurrence is searched on its own. -/
theorem replaceAll_append_needle {needle : List Char} (h : needle ≠ [])
    (replacement rest : List Char) :
    replaceAll needle replacement (needle ++ rest) =
      replacement ++ replaceAll needle replacement rest := by
  obtain ⟨c, cs, rfl⟩ := List.exists_cons_of_ne_nil h
  have hp : (c :: cs).isPrefixOf (c :: (cs ++ rest)) = true := by
    rw [List.isPrefixOf_iff_prefix, ← List.cons_append]
    exact List.prefix_append _ _
  simp [replaceAll, replaceFrom, hp, replaceFrom_drop (n := cs.length)]

end Bindery.Text
