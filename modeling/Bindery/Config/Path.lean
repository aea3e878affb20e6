/-!
# Paths

The names of files, as text in which slashes separate the parts. A path keeps the text it was
written with; empty parts and single dots in it say nothing.

* `Path.plain`: the path without the parts that say nothing.
* `Path.fileName?`, `Path.parent?`: the last part, and the path without it.
* `Path.extension?`, `Path.withExtension`: what a file name has after its last dot.
* `Path.join`: a path as seen from a folder.
-/

namespace Bindery

/-- The name of a file or folder. -/
structure Path where
  text : String
  deriving DecidableEq, Repr, Inhabited

namespace Path

/-! ## Parts -/

/-- The parts between slashes. -/
def split : List Char → List (List Char)
  | [] => [[]]
  | c :: cs =>
    if c = '/' then [] :: split cs
    else
      match split cs with
      | [] => [[c]]
      | part :: parts => (c :: part) :: parts

/-- Parts with slashes between them. -/
def unsplit : List (List Char) → List Char
  | [] => []
  | [part] => part
  | part :: parts => part ++ '/' :: unsplit parts

/-- A part that says nothing. -/
def isVoid (part : List Char) : Bool := part = [] || part = ['.']

/-- The front of a path, which stays whatever is taken off the end, and the parts after it. The
front is a slash if the path starts from the root, a dot if the path is spelled from a dot. -/
def anchor (text : List Char) : List Char × List (List Char) :=
  match split text with
  | [] => ([], [])
  | [] :: [] => ([], [])
  | [] :: parts => (['/'], parts)
  | ['.'] :: parts => (['.'], parts)
  | parts => ([], parts)

/-- A front with the parts after it. -/
def anchored (front : List Char) (parts : List (List Char)) : List Char :=
  match front, parts with
  | ['.'], part :: parts => '.' :: '/' :: unsplit (part :: parts)
  | front, parts => front ++ unsplit parts

/-- The path without the parts that say nothing. Paths that differ in such parts only are the same
path, wherever they lead. -/
def plain (p : Path) : String :=
  let (front, parts) := anchor p.text.toList
  String.ofList (anchored front (parts.filter (!isVoid ·)))

/-- Parts without those at the end that say nothing. -/
def trimVoid (parts : List (List Char)) : List (List Char) :=
  (parts.reverse.dropWhile isVoid).reverse

/-! ## File names -/

/-- Whether a path starts from the root. -/
def isAbsolute (p : Path) : Bool := p.text.toList.head? = some '/'

/-- The last part of a path that says something, unless it leads to the folder above. -/
def fileName? (p : Path) : Option (List Char) :=
  match (trimVoid (anchor p.text.toList).2).getLast? with
  | some part => if part = ['.', '.'] then none else some part
  | none => none

/-- The path without its last part. A path without parts has no parent. -/
def parent? (p : Path) : Option Path :=
  let (front, parts) := anchor p.text.toList
  match trimVoid parts with
  | [] => if front = ['.'] then some ⟨""⟩ else none
  | parts => some ⟨String.ofList (anchored front (trimVoid parts.dropLast))⟩

/-- What a file name has after its last dot. A dot in front of all else is part of the name. -/
def nameExtension? (name : List Char) : Option (List Char) :=
  let after := name.reverse.takeWhile (· ≠ '.')
  match name.reverse.dropWhile (· ≠ '.') with
  | [] => none
  | [_] => none
  | _ => some after.reverse

/-- The extension of the file name. -/
def extension? (p : Path) : Option (List Char) := p.fileName?.bind nameExtension?

/-- The path with an extension after its file name, if it has a file name without one. What follows
the file name is cut off. -/
def withExtension (p : Path) (extension : String) : Path :=
  match p.fileName?, p.extension? with
  | some _, none =>
    let (front, parts) := anchor p.text.toList
    ⟨String.ofList (anchored front (trimVoid parts)) ++ "." ++ extension⟩
  | _, _ => p

/-- A path as seen from a folder. One that starts from the root is seen from anywhere. -/
def join (folder p : Path) : Path :=
  if p.isAbsolute then p
  else if folder.text.isEmpty then p
  else if folder.text.toList.getLast? = some '/' then ⟨folder.text ++ p.text⟩
  else ⟨folder.text ++ "/" ++ p.text⟩

/-! ## Laws -/

theorem split_ne_nil (cs : List Char) : split cs ≠ [] := by
  induction cs with
  | nil => simp [split]
  | cons c cs ih =>
    simp only [split]
    split
    · simp
    · split <;> simp

theorem unsplit_split (cs : List Char) : unsplit (split cs) = cs := by
  induction cs with
  | nil => rfl
  | cons c cs ih =>
    simp only [split]
    split
    · rename_i h
      subst h
      cases hs : split cs with
      | nil => exact absurd hs (split_ne_nil cs)
      | cons part parts => rw [hs] at ih; simp [unsplit, ih]
    · cases hs : split cs with
      | nil => exact absurd hs (split_ne_nil cs)
      | cons part parts =>
        rw [hs] at ih
        cases parts with
        | nil => simpa [unsplit] using ih
        | cons next parts => simpa [unsplit] using ih

/-- A path from the root looks the same from everywhere. -/
theorem join_of_isAbsolute {p : Path} (h : p.isAbsolute = true) (folder : Path) :
    folder.join p = p := by
  simp [join, h]

end Path

end Bindery
