import CallBinding.Json.Value
import CallBinding.Settings.Basic

/-!
# Settings from documents

Settings as a JSON record.  Absent values keep their defaults; unknown keys are
ignored.
-/

namespace CallBinding
namespace Settings

/-- The keys of the record, in order. -/
def keys : List String :=
  "default_name" :: Delay.all.map Delay.key

/-- Reads a value, or takes the given one where it is absent. -/
def readOr {α : Type} (absent : α) (read? : Json → Option α) : Option Json → Option α
  | none => some absent
  | some value => read? value

def delayOfJson? (json : Json) : Option UInt64 :=
  (json.naturalBelow? UInt64.size).map UInt64.ofNat

/-- The settings that a JSON value denotes, acceptable or not. -/
def ofJson? (json : Json) : Option Settings :=
  match json.recordValues? keys with
  | some [name, spawnCheck, recheck, debounce, window] => do
      let name ← readOr default.defaultName Json.string? name
      let spawnCheck ← readOr default.spawnCheckDelay delayOfJson? spawnCheck
      let recheck ← readOr default.recheckDelay delayOfJson? recheck
      let debounce ← readOr default.debounce delayOfJson? debounce
      let window ← readOr default.suppressionWindow delayOfJson? window
      some ⟨name, spawnCheck, recheck, debounce, window⟩
  | _ => none

/-- The settings that a document gives, if they are acceptable. -/
def ofDocument (text : String) : Except SettingsError Settings :=
  match (Json.parse? text).bind ofJson? with
  | none => .error .malformed
  | some settings => settings.validated

def toJson (settings : Settings) : Json :=
  .record <| ("default_name", .string settings.defaultName) ::
    Delay.all.map fun delay => (delay.key, .natural (settings.delay delay).toNat)

def toDocument (settings : Settings) : String :=
  settings.toJson.render

end Settings
end CallBinding
