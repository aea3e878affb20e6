import Bindery.Options
import Bindery.Text.Blank

/-!
# Settings files

What a settings file says: which file it extends, and the settings it gives.

* `Settings`, `Config`: the contents of a file.
* `Settings.above`, `Config.above`: a file on top of the one it extends.
* `Config.options`: the options of a build with these settings.
-/

namespace Bindery

/-- The settings of a file. Those that it does not give are `none`. -/
structure Settings where
  debug : Option Bool := none
  packageAccessor : Option String := none
  builtins : Option (List String) := none
  ignored : Option (List String) := none
  deriving DecidableEq, Repr, Inhabited

/-- The contents of a settings file. -/
structure Config where
  /-- The file that this one extends, as it is named here. -/
  base : Option String := none
  settings : Option Settings := none
  deriving DecidableEq, Repr, Inhabited

/-! ## Extension -/

/-- Settings on top of others: each comes from the first that gives it. -/
def Settings.above (s base : Settings) : Settings where
  debug := s.debug.or base.debug
  packageAccessor := s.packageAccessor.or base.packageAccessor
  builtins := s.builtins.or base.builtins
  ignored := s.ignored.or base.ignored

/-- A file on top of the one it extends. The result extends nothing any more. -/
def Config.above (c base : Config) : Config where
  settings :=
    match c.settings, base.settings with
    | some s, some b => some (s.above b)
    | some s, none => some s
    | none, b => b

/-! ## Options -/

/-- The accessor that a setting asks for; a blank one asks for none. -/
def accessorName? (setting : String) : Option String :=
  let name := Text.trimString setting
  if name.isEmpty then none else some name

/-- The options under these settings. -/
def Settings.options (s : Settings) : Options :=
  let default : Options := {}
  { debug := s.debug.getD default.debug
    packageAccessor := (s.packageAccessor.bind accessorName?).getD default.packageAccessor
    builtins := s.builtins.getD default.builtins
    ignored := s.ignored.getD default.ignored }

/-- The options of a build with this file. -/
def Config.options (c : Config) : Options := (c.settings.map Settings.options).getD {}

/-! ## Laws -/

namespace Settings

theorem above_empty (s : Settings) : s.above {} = s := by
  cases s; simp [above]

theorem empty_above (s : Settings) : Settings.above {} s = s := by
  cases s; simp [above]

theorem above_assoc (a b c : Settings) : (a.above b).above c = a.above (b.above c) := by
  simp [above, Option.or_assoc]

end Settings

/-- A file on top of itself says nothing new. -/
theorem Config.settings_above_self (c : Config) : (c.above c).settings = c.settings := by
  cases h : c.settings <;> simp [Config.above, h, Settings.above]

end Bindery
