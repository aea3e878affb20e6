import Bindery.Table
import Bindery.Config.Path

/-!
# File systems

What reading settings files needs of a file system: which paths lead to the same file, and what the
files hold.

* `FileSystem`: files under the one name that stands for each, and the names of paths.
* `FileSystem.read?`: the contents of a file.
* `FileSystem.identity`: what tells a path from those that lead elsewhere.
* `FileSystem.ofFiles`: the file system that holds given files.
-/

namespace Bindery

/-- The files that exist, and where paths lead. -/
structure FileSystem where
  /-- The contents of each file, under the one name that stands for it. -/
  files : Table String
  /-- The name that stands for what a path leads to, if it leads anywhere. -/
  canonical? : Path → Option String
  /-- The greatest number of bytes in a path by which a file can be opened. -/
  longest : Nat

namespace FileSystem

/-- The contents of the file that a path leads to. -/
def read? (fs : FileSystem) (p : Path) : Option String :=
  if p.text.utf8ByteSize ≤ fs.longest then (fs.canonical? p).bind fs.files.get? else none

/-- The name of what a path leads to. A path that leads nowhere stands for itself. -/
def identity (fs : FileSystem) (p : Path) : String := (fs.canonical? p).getD p.plain

/-- How a path is shown to the user. -/
def display (fs : FileSystem) (p : Path) : String := (fs.canonical? p).getD p.text

end FileSystem

/-! ## Folders -/

/-- The parts of the way from the root to a file or folder. -/
abbrev Place := List (List Char)

namespace Place

/-- The name that stands for a place. -/
def name (p : Place) : String := String.ofList ('/' :: Path.unsplit p)

/-- One part on from a place, whether anything is there or not. -/
def follow (here : Place) (part : List Char) : Place :=
  if Path.isVoid part then here
  else if part = ['.', '.'] then here.dropLast
  else here ++ [part]

/-- The places that parts lead through, from the first to the last. -/
def through (here : Place) : List (List Char) → List Place
  | [] => [here]
  | part :: parts => here :: through (here.follow part) parts

end Place

/-- Files by their places. -/
structure FileTree where
  files : Table String := {}
  /-- The places that have been made folders. -/
  folders : List Place := []

namespace FileTree

/-- Whether a place is a folder. -/
def isFolder (t : FileTree) (p : Place) : Bool := p.isEmpty || p ∈ t.folders

/-- Whether there is a file or folder at a place. -/
def occupied (t : FileTree) (p : Place) : Bool := t.isFolder p || t.files.contains p.name

/-- Go one part on from a place, which has to be a folder. -/
def enter (t : FileTree) (here : Place) (part : List Char) : Option Place :=
  if t.isFolder here && t.occupied (here.follow part) then some (here.follow part) else none

/-- Where a path leads. -/
def locate? (t : FileTree) (p : Path) : Option Place :=
  if p.text.isEmpty then none else (Path.split p.text.toList).foldlM t.enter []

/-- Make folders of all places that parts lead through from the root. -/
def addFolders (t : FileTree) (parts : List (List Char)) : FileTree :=
  { t with folders := t.folders ++ Place.through [] parts }

/-- Write a file. All that its path leads through on the way is made a folder, also what the path
leaves again. -/
def write (t : FileTree) (p : Path) (content : String) : FileTree :=
  let parts := Path.split p.text.toList
  let t := t.addFolders parts.dropLast
  { t with files := t.files.insert (Place.name (parts.foldl Place.follow [])) content }

/-- Files in their folders, as a file system. -/
def fileSystem (t : FileTree) : FileSystem where
  files := t.files
  canonical? p := (t.locate? p).map Place.name
  longest := 4095

end FileTree

/-- The file system that holds one folder with the given files in it, named as seen from there. -/
def FileSystem.ofFiles (folder : Path) (files : List (Path × String)) : FileSystem :=
  let start := ({} : FileTree).addFolders (Path.split folder.text.toList)
  (files.foldl (fun (t : FileTree) f => t.write (folder.join f.1) f.2) start).fileSystem

/-! ## Laws -/

namespace FileSystem

/-- What can be read is a file, under the name by which its path is told from others. -/
theorem get?_identity {fs : FileSystem} {p : Path} {text : String} (h : fs.read? p = some text) :
    fs.files.get? (fs.identity p) = some text := by
  unfold read? at h
  split at h
  · obtain ⟨name, hn, ht⟩ := Option.bind_eq_some_iff.1 h
    simpa [identity, hn] using ht
  · simp at h

/-- Paths that lead to the same place hold the same contents, if both can be opened. -/
theorem read?_congr {fs : FileSystem} {p q : Path} (h : fs.canonical? p = fs.canonical? q)
    (hp : p.text.utf8ByteSize ≤ fs.longest) (hq : q.text.utf8ByteSize ≤ fs.longest) :
    fs.read? p = fs.read? q := by
  simp [read?, h, hp, hq]

end FileSystem

end Bindery
