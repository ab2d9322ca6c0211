import CallBinding.Controller.Agenda
import CallBinding.Host.Query
import CallBinding.Settings.Basic

/-!
# Controllers

A controller keeps the call sites of one host bound.  It handles the messages
in its mailbox one after another.  A session is the time after the creation of
a call site in which the controller binds it and watches the definitions that
the host creates on its behalf; sessions may overlap.  When no session is open
and the graph has been quiet for a while, the controller runs its cleanup.
-/

namespace CallBinding

/-- The stages of a session. -/
inductive SessionPhase where
  | suppressing
  | nameResolution
  | parameterSync
  /-- The call site is bound and its second binding is due. -/
  | delayedRecheck
  /-- The second binding is done and the session is due to close. -/
  | settling
  deriving DecidableEq, Repr

/-- The word for a phase in documents. -/
def SessionPhase.label : SessionPhase → String
  | suppressing => "Suppressing"
  | nameResolution => "NameResolution"
  | parameterSync => "ParameterSync"
  | delayedRecheck => "DelayedRecheck"
  | settling => "Settling"

structure Session where
  id : SessionId
  callSite : BlockId
  /-- The definitions that were live when the call site was created. -/
  prior : List BlockId
  phase : SessionPhase
  /-- Definitions created during the session whose check is due. -/
  spawnChecks : List BlockId
  /-- Definitions created during the session that survived their check. -/
  spawned : List BlockId
  deriving DecidableEq, Repr

/-- The number of alarms that a session waits for: its end, its second binding until that is
done, and one for each check that is due. -/
def Session.pendingAlarms (session : Session) : Nat :=
  (if session.phase = .delayedRecheck then 1 else 0) + 1 + session.spawnChecks.length

/-- The number of alarms that several sessions wait for. -/
def Session.pendingAlarmsOf : List Session → Nat
  | [] => 0
  | session :: rest => session.pendingAlarms + pendingAlarmsOf rest

/-- What a controller finds in its mailbox. -/
inductive Message where
  | event (event : Event)
  /-- A call site was created while the listed definitions were live. -/
  | callSiteCreated (call : BlockId) (prior : List BlockId)
  | due (alarm : Alarm)
  /-- The controller is asked to stop. -/
  | detach
  deriving DecidableEq, Repr

/-- What a controller does when the graph has settled. -/
inductive Cleanup where
  | sweep
  /-- It does nothing but count. -/
  | count
  /-- It fails, which ends the controller. -/
  | panic
  deriving DecidableEq, Repr

/-- The word for a cleanup in traces. -/
def Cleanup.label : Cleanup → String
  | sweep => "sweep"
  | count => "count"
  | panic => "panic"

/-- The wait for a quiet graph.  Each arming has its own generation, so an alarm of an earlier
one is recognised when it goes off all the same. -/
structure Debounce where
  generation : Nat
  isPending : Bool
  deriving DecidableEq, Repr

structure Controller where
  settings : Settings
  cleanup : Cleanup
  /-- The open sessions, oldest first. -/
  sessions : List Session
  nextSession : Nat
  /-- The valid name that a call site was given last. -/
  lastGoodName : Option String
  debounce : Debounce
  cleanups : Nat
  agenda : Agenda
  mailbox : List Message
  deriving DecidableEq, Repr

namespace Controller

/-- A controller that has seen nothing yet. -/
def new (settings : Settings) (cleanup : Cleanup) : Controller where
  settings := settings
  cleanup := cleanup
  sessions := []
  nextSession := 0
  lastGoodName := none
  debounce := ⟨0, false⟩
  cleanups := 0
  agenda := []
  mailbox := []

/-- Whether a session is open. -/
def isBusy (controller : Controller) : Bool :=
  !controller.sessions.isEmpty

def session? (controller : Controller) (id : SessionId) : Option Session :=
  controller.sessions.find? fun session => session.id = id

/-- Replaces an open session by its image. -/
def modifySession (controller : Controller) (id : SessionId) (change : Session → Session) :
    Controller :=
  { controller with
    sessions := controller.sessions.map fun session =>
      if session.id = id then change session else session }

/-- Takes a session off the open ones, with its alarms. -/
def closeSession (controller : Controller) (id : SessionId) : Controller :=
  { controller with
    sessions := controller.sessions.filter fun session => session.id ≠ id
    agenda := controller.agenda.cancelSession id }

def arm (controller : Controller) (now : Nat) (delay : UInt64) (alarm : Alarm) : Controller :=
  { controller with agenda := controller.agenda.arm now delay alarm }

/-- Posts the alarms that go off at or before a time. -/
def wake (controller : Controller) (time : Nat) : Controller :=
  { controller with
    agenda := controller.agenda.laterThan time
    mailbox := controller.mailbox ++ (controller.agenda.dueBy time).map .due }

/-- Gives up the wait for a quiet graph, if there is one. -/
def cancelDebounce (controller : Controller) : Controller :=
  { controller with
    debounce := { controller.debounce with isPending := false }
    agenda := controller.agenda.cancel (.debounce controller.debounce.generation) }

/-- Starts the wait for a quiet graph anew. -/
def rearmDebounce (controller : Controller) (now : Nat) : Controller :=
  let generation := controller.debounce.generation + 1
  { controller.cancelDebounce with debounce := ⟨generation, true⟩ }.arm now
    controller.settings.debounce (.debounce generation)

/-- Starts the wait for a quiet graph anew, unless a session is open. -/
def rearmWhenIdle (controller : Controller) (now : Nat) : Controller :=
  if controller.isBusy then controller else controller.rearmDebounce now

/-- Remembers a valid name that a call site was given. -/
def remember (controller : Controller) (name : String) : Controller :=
  if Name.isValid name then
    { controller with lastGoodName := some name }
  else
    controller

end Controller

/-- What a controller tells about itself. -/
structure Status where
  openSessions : Nat
  /-- The phases of the open sessions, oldest first. -/
  phases : List SessionPhase
  /-- The alarms that are armed or have gone off and wait to be handled. -/
  pendingAlarms : Nat
  lastGoodName : Option String
  cleanups : Nat
  deriving DecidableEq, Repr

def Controller.status (controller : Controller) : Status where
  openSessions := controller.sessions.length
  phases := controller.sessions.map (·.phase)
  pendingAlarms :=
    Session.pendingAlarmsOf controller.sessions + if controller.debounce.isPending then 1 else 0
  lastGoodName := controller.lastGoodName
  cleanups := controller.cleanups

/-- A quiescent controller waits for nothing but new events. -/
def Status.isQuiescent (status : Status) : Bool :=
  status.openSessions = 0 && status.pendingAlarms = 0

/-- What a controller is told of an event.  With the creation of a call site goes a list of the
definitions that are live at this moment. -/
def Message.ofEvent (host : Host) (event : Event) : Message :=
  if event.kind = .create && (host.block? event.block).any Block.isCallSite then
    .callSiteCreated event.block (host.definitions.map (·.id))
  else
    .event event

end CallBinding
