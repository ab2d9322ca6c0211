import CallBinding.Name
import CallBinding.Text.Decimal

/-!
# Settings

Every wait of the controller is a setting, and so is the name of a call site
that nothing else can name.  Delays are whole milliseconds in 64 bits.
-/

namespace CallBinding

/-- The tuning of a controller. -/
structure Settings where
  /-- The name of a new call site for which no definition and no earlier call site has one. -/
  defaultName : String
  /-- From the creation of a definition in an open session to its check. -/
  spawnCheckDelay : UInt64
  /-- From the creation of a call site to its second binding. -/
  recheckDelay : UInt64
  /-- From the last change to the cleanup. -/
  debounce : UInt64
  /-- From the creation of a call site to the end of its session. -/
  suppressionWindow : UInt64
  deriving DecidableEq, Repr

inductive Delay where
  | spawnCheck
  | recheck
  | debounce
  | suppressionWindow
  deriving DecidableEq, Repr

namespace Delay

/-- The delays in the order in which they are read. -/
def all : List Delay :=
  [spawnCheck, recheck, debounce, suppressionWindow]

def key : Delay → String
  | spawnCheck => "spawn_check_delay_ms"
  | recheck => "recheck_delay_ms"
  | debounce => "debounce_ms"
  | suppressionWindow => "suppression_window_ms"

end Delay

/-- The reasons for which settings are refused. -/
inductive SettingsError where
  /-- The document is not one of settings. -/
  | malformed
  /-- The text given for a delay under some key is no number of milliseconds. -/
  | notMilliseconds (key text : String)
  /-- The default name is a placeholder. -/
  | placeholderName (name : String)
  /-- The session would end before or with the second binding of its call site. -/
  | windowTooShort (window recheck : UInt64)
  deriving DecidableEq, Repr

/-- What is wrong with a single setting. -/
structure SettingFault where
  key : String
  value : String
  reason : String
  deriving DecidableEq, Repr

/-- What a faulty setting says to a person. -/
def SettingFault.message (fault : SettingFault) : String :=
  "invalid setting " ++ fault.key ++ "=" ++ fault.value ++ ": " ++ fault.reason

/-- The setting that an error is about; a malformed document has none. -/
def SettingsError.fault? : SettingsError → Option SettingFault
  | malformed => none
  | notMilliseconds key text => some ⟨key, text, "expected a whole number of milliseconds"⟩
  | placeholderName name => some ⟨"default_name", name, "must not be a placeholder name"⟩
  | windowTooShort window recheck =>
      some ⟨Delay.suppressionWindow.key, decimal window.toNat,
        "must exceed recheck_delay_ms (" ++ decimal recheck.toNat ++ ")"⟩

namespace Settings

/-- The settings that hold where nothing else is said. -/
def default : Settings where
  defaultName := "procedure"
  spawnCheckDelay := 0
  recheckDelay := 50
  debounce := 300
  suppressionWindow := 3500

def delay (settings : Settings) : Delay → UInt64
  | .spawnCheck => settings.spawnCheckDelay
  | .recheck => settings.recheckDelay
  | .debounce => settings.debounce
  | .suppressionWindow => settings.suppressionWindow

/-- The settings with one delay replaced. -/
def setDelay (settings : Settings) (value : UInt64) : Delay → Settings
  | .spawnCheck => { settings with spawnCheckDelay := value }
  | .recheck => { settings with recheckDelay := value }
  | .debounce => { settings with debounce := value }
  | .suppressionWindow => { settings with suppressionWindow := value }

/-- Accepts settings whose default name can name a procedure and whose second binding falls
into the session. -/
def validate (settings : Settings) : Except SettingsError Unit :=
  if Name.isPlaceholder settings.defaultName then
    .error (.placeholderName settings.defaultName)
  else if settings.suppressionWindow ≤ settings.recheckDelay then
    .error (.windowTooShort settings.suppressionWindow settings.recheckDelay)
  else
    .ok ()

/-- The settings themselves, if they are acceptable. -/
def validated (settings : Settings) : Except SettingsError Settings :=
  settings.validate.map fun _ => settings

end Settings
end CallBinding
