import Bindery.Config.Basic
import Bindery.Json.Record
import Bindery.Json.Relaxed

/-!
# Reading settings

The text of a settings file is relaxed JSON: an object with the members `extends` and
`compilerOptions`, or an array of their values.

* `switch?`: the words for on and off.
* `Config.parse`: the contents of a file.
-/

namespace Bindery

open Json (Reader RecordField)

/-! ## Single settings -/

/-- The words for on and off, whatever their case and the blanks around them. -/
def switch? (word : String) : Option Bool :=
  match Text.settingWord word with
  | "true" | "1" | "yes" | "on" => some true
  | "false" | "0" | "no" | "off" => some false
  | _ => none

/-- What is said about a word that is not one for on or off. -/
def switchDetail (word : String) : String :=
  "invalid boolean value: '" ++ word ++ "'. Expected true, false, 'true', or 'false'"

/-- What a value means as a switch. -/
def ofDatum : Json.Datum → Except Json.Fault Bool
  | .bool b => .ok b
  | .string word =>
    match switch? word with
    | some b => .ok b
    | none => .error (.shape (some (switchDetail word)))
  | .other => .error (.shape none)

/-- A switch: a boolean, or a word for one. -/
def switch : Reader Bool := fun cs => do
  let s ← Json.datum .full cs
  let b ← ofDatum s.value
  return s.map fun _ => b

/-! ## Files -/

/-- A field that may be `null`, which is the same as not giving it. -/
def settingField {σ α : Type} (name : String) (read : Reader α) (set : σ → Option α → σ) :
    RecordField σ :=
  ⟨name, fun state cs => (Json.readOptional read cs).map (Json.Step.map (set state))⟩

/-- The settings, in the order in which an array gives them. -/
def settingsFields : List (RecordField Settings) :=
  [settingField "debug" switch fun s v => { s with debug := v },
    settingField "packageAccessor" Json.readString fun s v => { s with packageAccessor := v },
    settingField "builtins" Json.readStrings fun s v => { s with builtins := v },
    settingField "ignoredDependencies" Json.readStrings fun s v => { s with ignored := v }]

/-- The parts of a file, in the order in which an array gives them. -/
def configFields : List (RecordField Config) :=
  [settingField "extends" Json.readString fun c v => { c with base := v },
    settingField "compilerOptions" (Json.readRecord settingsFields {}) fun c v =>
      { c with settings := v }]

/-- The contents of a settings file. -/
def Config.parse (text : String) : Except Json.ReadError Config :=
  Json.readAll (Json.readRecord configFields {}) (Json.plain text.toList)

/-- What is said of a text that cannot be read. -/
def Config.parseMessage : String := "failed to parse avt config JSON"

end Bindery
