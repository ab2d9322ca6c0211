import CallBinding.Controller.Basic
import CallBinding.Reconcile.Sync

/-!
# Binding a call site

A new call site is bound twice: when its session opens, to a definition that
was there before it, and once more after a delay, to whatever its name then
denotes.  A usable name that nothing competes with is the user's and is kept.
-/

namespace CallBinding
namespace Host

/-- The validly named definitions among those of a list, in graph order. -/
def usable (host : Host) (prior : List BlockId) : List Definition :=
  host.definitions.filter fun definition =>
    prior.contains definition.id && Name.isValid definition.name

/-- Gives a call site a name, where it has another one. -/
def giveName (host : Host) (call : BlockId) (current name : String) : Except EditorError Host :=
  if name = current then .ok host else host.setField call nameField name

/-- The definition that a call site of some name is bound to at its second binding: the first of
that name, or else the first usable one of a list. -/
def secondChoice? (host : Host) (prior : List BlockId) (current : String) : Option Definition :=
  let named := if Name.isValid current then host.definitionNamed? current else none
  named.or (host.usable prior).head?

end Host

namespace Controller

/-- The name that a new call site takes.  It keeps its own, unless that is a placeholder or there
are usable definitions and none carries it. -/
def nameFor (controller : Controller) (usable : List Definition) (current : String) : String :=
  let known := usable.any fun definition => definition.name = current
  if Name.isPlaceholder current || (!usable.isEmpty && !known) then
    ((usable.head?.map (·.name)).or controller.lastGoodName).getD controller.settings.defaultName
  else
    current

/-- The usable definition of a name, or else the first one. -/
def bindingFor? (usable : List Definition) (name : String) : Option BlockId :=
  ((usable.find? fun definition => definition.name = name).or usable.head?).map (·.id)

/-- Names a new call site and finds the definition to bind it to.  Nothing happens when the call
site cannot be read or written. -/
def nameCallSite (controller : Controller) (host : Host) (call : BlockId)
    (prior : List BlockId) : Option BlockId × Controller × Host :=
  match host.nameOf? call with
  | none => (none, controller, host)
  | some current =>
      let usable := host.usable prior
      let name := controller.nameFor usable current
      match host.giveName call current name with
      | .error _ => (none, controller, host)
      | .ok named => (bindingFor? usable name, controller.remember name, named)

/-- Names and binds a new call site while events are suppressed. -/
def bindCallSite (controller : Controller) (host : Host) (call : BlockId)
    (prior : List BlockId) : Controller × Host :=
  let (binding, named, renamed) := controller.nameCallSite host.suppress call prior
  let bound :=
    match binding with
    | none => renamed
    | some definition => (renamed.sync call definition).2
  (named, bound.resume)

/-- Opens a session for a call site that has just been bound.  It takes the place of a cleanup
that was waited for. -/
def openSession (controller : Controller) (now : Nat) (call : BlockId) (prior : List BlockId) :
    Controller :=
  let id : SessionId := ⟨controller.nextSession⟩
  let armed :=
    (controller.arm now controller.settings.recheckDelay (.recheck id)).arm now
      controller.settings.suppressionWindow (.window id)
  { armed.cancelDebounce with
    sessions := controller.sessions ++ [⟨id, call, prior, .delayedRecheck, [], []⟩]
    nextSession := controller.nextSession + 1 }

/-- Handles the creation of a call site. -/
def onCallSiteCreated (controller : Controller) (now : Nat) (host : Host) (call : BlockId)
    (prior : List BlockId) : Controller × Host :=
  match host.block? call with
  | none => (controller.rearmWhenIdle now, host)
  | some _ =>
      let (named, bound) := controller.bindCallSite host call prior
      (named.openSession now call prior, bound)

/-- Binds a call site to a definition for the second time.  The name of the definition is
remembered as it is. -/
def rebind (controller : Controller) (host : Host) (call : BlockId) (current : String)
    (definition : Definition) : Controller × Host :=
  match host.giveName call current definition.name with
  | .error _ => (controller, host)
  | .ok named =>
      ({ controller with lastGoodName := some definition.name },
        (named.sync call definition.id).2)

/-- Handles the alarm for the second binding of a session's call site. -/
def onRecheck (controller : Controller) (host : Host) (id : SessionId) : Controller × Host :=
  match controller.session? id with
  | none => (controller, host)
  | some session =>
      let settling := controller.modifySession id fun session => { session with phase := .settling }
      match host.nameOf? session.callSite with
      | none => (settling, host)
      | some current =>
          match host.secondChoice? session.prior current with
          | none => (settling, host)
          | some definition => settling.rebind host session.callSite current definition

end Controller
end CallBinding
