import CallBinding.Controller.Basic
import CallBinding.Json.Value
import CallBinding.Text.Uuid

/-!
# Session data as JSON

Phases are written as words.  Outside of a running program, sessions,
controllers and subscriptions are identified by UUIDs, which are strings.
-/

namespace CallBinding
namespace SessionPhase

def all : List SessionPhase :=
  [suppressing, nameResolution, parameterSync, delayedRecheck, settling]

def toJson (phase : SessionPhase) : Json :=
  .string phase.label

def ofJson? (json : Json) : Option SessionPhase :=
  json.word?.bind fun word => all.find? fun phase => phase.label = word

end SessionPhase

namespace Uuid

def toJson (uuid : Uuid) : Json :=
  .string uuid.toString

/-- The UUID that a string denotes in any of its forms. -/
def ofJson? (json : Json) : Option Uuid :=
  json.string?.bind parse?

end Uuid

/-- What a UUID identifies. -/
inductive Identified where
  | session
  | controller
  | subscription
  deriving DecidableEq, Repr

/-- An identifier as it is shown to people. -/
def Identified.display (identified : Identified) (uuid : Uuid) : String :=
  match identified with
  | session => "session:" ++ uuid.toString
  | controller => "controller:" ++ uuid.toString
  | subscription => uuid.toString

end CallBinding
