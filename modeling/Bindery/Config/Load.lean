import Bindery.Config.Parse
import Bindery.Config.FileSystem

/-!
# Loading settings

A settings file is loaded together with the files it extends, one after the other. A file on this
way that has been met before makes it a cycle.

* `Path.extended?`: the file that a file extends.
* `FileSystem.load`: a file on top of all that it extends.
* `FileSystem.unmet_lt`: every step meets a file that was not met before, so the way ends.
-/

namespace Bindery

/-- Why there is nothing to read. -/
inductive Absence where
  /-- There is no file at the path, or it cannot be read. -/
  | noFile (path : Path)
  /-- A file is named as seen from the folder of another one, which lies in no folder. -/
  | noFolder
  deriving DecidableEq, Repr

/-- Why a settings file cannot be loaded. -/
inductive LoadError where
  /-- A file extends itself, directly or through others. -/
  | cycle (name : String)
  /-- There is nothing to read. -/
  | unreadable (reason : Absence)
  /-- The contents of a file cannot be understood. -/
  | malformed (path : Path) (error : Json.ReadError)
  deriving DecidableEq, Repr

/-- What is reported to the user. -/
def LoadError.message : LoadError → String
  | cycle name => "avt config extends cycle detected at " ++ name
  | unreadable (.noFile path) => "failed to read avt config: " ++ path.text
  | unreadable .noFolder => "avt config has no parent directory"
  | malformed path _ => "failed to parse avt config: " ++ path.text

/-- The file that the file at `p` extends, given how it is named there: seen from the folder of
`p`, with the extension of settings files unless it has one. A path without a folder extends
nothing, however the file is named. -/
def Path.extended? (p : Path) (base : String) : Option Path :=
  p.parent?.map (·.join (Path.withExtension ⟨base⟩ "json"))

namespace FileSystem

/-- The number of files that have not been met. -/
def unmet (fs : FileSystem) (met : List String) : Nat := fs.files.keys.countP (· ∉ met)

/-- Meeting a file for the first time leaves fewer to meet. -/
theorem unmet_lt {fs : FileSystem} {met : List String} {name : String}
    (hf : name ∈ fs.files.keys) (hm : name ∉ met) : fs.unmet (name :: met) < fs.unmet met := by
  unfold unmet
  generalize fs.files.keys = names at hf
  induction names with
  | nil => simp at hf
  | cons n names ih =>
    have le (ns : List String) : ns.countP (· ∉ name :: met) ≤ ns.countP (· ∉ met) :=
      List.countP_mono_left fun x _ => by simp
    rw [List.countP_cons, List.countP_cons]
    by_cases hn : n = name
    · subst hn
      have := le names
      rw [if_neg (by simp), if_pos (by simpa using hm)]
      omega
    · have := ih ((List.mem_cons.1 hf).resolve_left (Ne.symm hn))
      have he : decide (n ∉ name :: met) = decide (n ∉ met) := by simp [hn]
      rw [he]
      omega

theorem identity_mem_keys {fs : FileSystem} {path : Path} {text : String}
    (h : fs.read? path = some text) : fs.identity path ∈ fs.files.keys := by
  rw [← Table.contains_iff, Table.contains, get?_identity h]
  rfl

/-- The file at `path` on top of all that it extends, when the files `met` lead to it. -/
def loadFrom (fs : FileSystem) (met : List String) (path : Path) : Except LoadError Config :=
  if hm : fs.identity path ∈ met then .error (.cycle (fs.display path))
  else
    match hf : fs.read? path with
    | none => .error (.unreadable (.noFile path))
    | some text =>
      match Config.parse text with
      | .error e => .error (.malformed path e)
      | .ok config =>
        match config.base with
        | none => .ok config
        | some base =>
          match path.extended? base with
          | none => .error (.unreadable .noFolder)
          | some below =>
            have := unmet_lt (identity_mem_keys hf) hm
            (loadFrom fs (fs.identity path :: met) below).map config.above
termination_by fs.unmet met

/-- A settings file on top of all that it extends. -/
def load (fs : FileSystem) (path : Path) : Except LoadError Config := fs.loadFrom [] path

/-! ## Laws -/

/-- What has been loaded extends nothing any more. -/
theorem base_of_loadFrom {fs : FileSystem} {met : List String} {path : Path} {c : Config}
    (h : fs.loadFrom met path = .ok c) : c.base = none := by
  unfold loadFrom at h
  split at h
  · simp at h
  split at h
  · simp at h
  split at h
  · simp at h
  rename_i config _
  split at h
  · rename_i hb
    obtain rfl := Except.ok.inj h
    exact hb
  · split at h
    · simp at h
    · rename_i below _
      revert h
      cases fs.loadFrom _ below with
      | error e => simp [Except.map]
      | ok b =>
        intro h
        obtain rfl := Except.ok.inj h
        rfl

end FileSystem

end Bindery
