import CallBinding.Controller.Binding
import CallBinding.Controller.Spawned
import CallBinding.Reconcile.Sweep

/-!
# Handling messages

One message is handled at a time.  Besides the new state of the host, a turn
tells how the controller goes on and which cleanup it has run.
-/

namespace CallBinding

/-- How a controller goes on after a message. -/
inductive Fate where
  /-- It waits for the next message. -/
  | running (controller : Controller)
  /-- It has stopped as it was asked to. -/
  | detached
  /-- Its cleanup has failed. -/
  | crashed
  deriving DecidableEq, Repr

/-- The outcome of handling one message. -/
structure Turn where
  host : Host
  fate : Fate
  /-- The cleanup that was started. -/
  cleanup : Option Cleanup
  deriving DecidableEq

/-- A turn after which the controller goes on, without a cleanup. -/
def Turn.proceed (controller : Controller) (host : Host) : Turn :=
  ⟨host, .running controller, none⟩

namespace Controller

/-- Handles an event.  A new definition belongs to the session opened last; without an open
session the wait for a quiet graph starts anew. -/
def onEvent (controller : Controller) (now : Nat) (host : Host) (event : Event) : Controller :=
  let spawned := event.kind = .create && (host.block? event.block).any Block.isDefinition
  let noted := if spawned then controller.onDefinitionCreated now event.block else controller
  noted.rearmWhenIdle now

def runCleanup (controller : Controller) (host : Host) : Turn :=
  let counted := { controller with cleanups := controller.cleanups + 1 }
  match controller.cleanup with
  | .sweep => ⟨host.sweep.2, .running counted, some .sweep⟩
  | .count => ⟨host, .running counted, some .count⟩
  | .panic => ⟨host, .crashed, some .panic⟩

/-- Handles the alarm for a quiet graph.  The cleanup waits for another time when a session is
open or a call site has no name yet. -/
def onDebounce (controller : Controller) (host : Host) (generation : Nat) : Turn :=
  if generation ≠ controller.debounce.generation || !controller.debounce.isPending then
    .proceed controller host
  else
    let taken :=
      { controller with debounce := { controller.debounce with isPending := false } }
    if taken.isBusy || host.callSites.any (fun call => Name.isPlaceholder call.name) then
      .proceed taken host
    else
      taken.runCleanup host

def onAlarm (controller : Controller) (now : Nat) (host : Host) : Alarm → Turn
  | .spawnCheck session definition =>
      let (next, checked) := controller.onSpawnCheck host session definition
      .proceed next checked
  | .recheck session =>
      let (next, bound) := controller.onRecheck host session
      .proceed next bound
  | .window session =>
      let (next, settled) := controller.onWindow now host session
      .proceed next settled
  | .debounce generation => controller.onDebounce host generation

def handle (controller : Controller) (now : Nat) (host : Host) : Message → Turn
  | .event event => .proceed (controller.onEvent now host event) host
  | .callSiteCreated call prior =>
      let (next, bound) := controller.onCallSiteCreated now host call prior
      .proceed next bound
  | .due alarm => controller.onAlarm now host alarm
  | .detach => ⟨host, .detached, none⟩

end Controller
end CallBinding
