import CallBinding.Settings.Basic

/-!
# Settings from variables

Settings given as texts under the names of environment variables.  What no
variable gives keeps its default.
-/

namespace CallBinding

def defaultNameVariable : String :=
  "PROCBIND_DEFAULT_NAME"

def Delay.variableName : Delay → String
  | spawnCheck => "PROCBIND_SPAWN_CHECK_DELAY_MS"
  | recheck => "PROCBIND_RECHECK_DELAY_MS"
  | debounce => "PROCBIND_DEBOUNCE_MS"
  | suppressionWindow => "PROCBIND_SUPPRESSION_WINDOW_MS"

/-- The number of milliseconds that a text gives, blanks around it aside. -/
def readMilliseconds? (text : String) : Option UInt64 :=
  (readNumeral? UInt64.size (trimBlanks text.toList)).map UInt64.ofNat

namespace Settings

/-- Takes a delay from its variable, if that is set. -/
def readDelay (lookup : String → Option String) (settings : Settings) (delay : Delay) :
    Except SettingsError Settings :=
  match lookup delay.variableName with
  | none => .ok settings
  | some text =>
      match readMilliseconds? text with
      | none => .error (.notMilliseconds delay.variableName text)
      | some value => .ok (settings.setDelay value delay)

/-- Takes the default name from its variable, if that is set. -/
def readDefaultName (lookup : String → Option String) (settings : Settings) : Settings :=
  match lookup defaultNameVariable with
  | none => settings
  | some name => { settings with defaultName := name }

/-- The settings that variables give, if they are acceptable. -/
def ofVariables (lookup : String → Option String) : Except SettingsError Settings :=
  (Delay.all.foldlM (readDelay lookup) (readDefaultName lookup default)).bind validated

/-- The texts of the variables that give some settings. -/
def toVariables (settings : Settings) : List (String × String) :=
  (defaultNameVariable, settings.defaultName) ::
    Delay.all.map fun delay => (delay.variableName, decimal (settings.delay delay).toNat)

end Settings
end CallBinding
