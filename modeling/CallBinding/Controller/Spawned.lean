import CallBinding.Controller.Basic
import CallBinding.Reconcile.Apply

/-!
# Spawned definitions

Definitions that appear while a session is open were spawned by the host, most
likely for a call site of the session.  Each is checked once against its
family, at its own alarm or when the session closes, and never at the cost of a
definition that is older than the session.  When the session closes, a spawned
definition that nobody calls is a scaffold and goes.
-/

namespace CallBinding
namespace Host

/-- Resolves the family of a spawned definition, and tells whether the definition is still there. -/
def checkSpawned (host : Host) (definition : BlockId) (prior : List BlockId) : Bool × Host :=
  match host.definition? definition with
  | none => (false, host)
  | some found =>
      let resolved := (host.apply (planSpawned host.members found.name prior)).2
      ((resolved.definition? definition).isSome, resolved)

/-- Disposes of a definition that no call site can mean. -/
def disposeIfScaffold (host : Host) (definition : BlockId) : Host :=
  match host.definition? definition with
  | none => host
  | some found =>
      if Name.isValid found.name && !(host.callersOf found.name).isEmpty then
        host
      else
        host.dispose definition

/-- Checks a spawned definition whose session closes before its alarm. -/
def settleUnchecked (prior : List BlockId) (host : Host) (definition : BlockId) : Host :=
  let (survived, checked) := host.checkSpawned definition prior
  if survived then checked.disposeIfScaffold definition else checked

/-- Settles the spawned definitions of a session that closes. -/
def settleSpawned (host : Host) (session : Session) : Host :=
  session.spawned.foldl disposeIfScaffold
    (session.spawnChecks.foldl (settleUnchecked session.prior) host)

end Host

namespace Controller

/-- Enters a new definition into the session opened last, if it is younger than that. -/
def onDefinitionCreated (controller : Controller) (now : Nat) (definition : BlockId) :
    Controller :=
  match controller.sessions.getLast? with
  | none => controller
  | some session =>
      if session.prior.contains definition then
        controller
      else
        (controller.arm now controller.settings.spawnCheckDelay
          (.spawnCheck session.id definition)).modifySession session.id fun session =>
            { session with spawnChecks := session.spawnChecks ++ [definition] }

/-- Handles the alarm for the check of a spawned definition. -/
def onSpawnCheck (controller : Controller) (host : Host) (id : SessionId)
    (definition : BlockId) : Controller × Host :=
  match controller.session? id with
  | none => (controller, host)
  | some session =>
      let (survived, checked) := host.checkSpawned definition session.prior
      let change (session : Session) : Session :=
        { session with
          spawnChecks := session.spawnChecks.filter fun other => other ≠ definition
          spawned := if survived then session.spawned ++ [definition] else session.spawned }
      (controller.modifySession id change, checked)

/-- Handles the alarm for the end of a session. -/
def onWindow (controller : Controller) (now : Nat) (host : Host) (id : SessionId) :
    Controller × Host :=
  match controller.session? id with
  | none => (controller, host)
  | some session => ((controller.closeSession id).rearmWhenIdle now, host.settleSpawned session)

end Controller
end CallBinding
