import CallBinding.Editor.Action
import CallBinding.Workbench.Basic

/-!
# Steps

What can be done at a workbench, and what it answers.  `Workbench.step` does
one step; `Workbench.run` does several and reports, for each, the answer, the
new entries of the trace and the commands that were newly logged.
-/

namespace CallBinding

/-- What can be looked up in the editor itself. -/
inductive Inspection where
  | pendingReflexes
  | commands
  | clearCommands
  | contains (id : BlockId)
  | listeners
  | isSuppressed
  | state
  deriving DecidableEq, Repr

/-- What a program asks of the host. -/
inductive HostRequest where
  | block (id : BlockId)
  | blocksOfRole (role : Role)
  | field (id : BlockId) (key : String)
  | parameters (id : BlockId)
  | declared (name : String)
  | command (command : Command)
  | suppress
  | resume
  | subscribe
  | heard (tap : Nat)
  | unsubscribe (tap : Nat)
  deriving DecidableEq, Repr

/-- What is read by role. -/
inductive Query where
  | definitions
  | callSites
  | callersOf (name : String)
  | definition (id : BlockId)
  | callSite (id : BlockId)
  | definitionNamed (name : String)
  | nameOf (id : BlockId)
  | parameterCount (id : BlockId)
  deriving DecidableEq, Repr

/-- What is done to reconcile the graph. -/
inductive Reconciliation where
  | identitiesOf (parameters : Parameters)
  | sync (call definition : BlockId)
  | syncCallers (definition : BlockId)
  | members
  | plan
  | planFamily (name : String)
  | planSpawned (name : String) (prior : List BlockId)
  /-- Carries out the given plan, or else the one made last. -/
  | apply (plan : Option (List Resolution))
  | sweep
  deriving DecidableEq, Repr

/-- One step at a workbench. -/
inductive Step where
  | user (action : UserAction)
  | inspect (inspection : Inspection)
  | host (request : HostRequest)
  | query (query : Query)
  | reconcile (reconciliation : Reconciliation)
  | setFaults (id : BlockId) (faults : List Fault)
  | setLeaky (leaky : Bool)
  | attach (cleanup : Cleanup) (settings : Settings)
  | advance (milliseconds : Nat)
  | status
  | detach
  | drop
  deriving DecidableEq, Repr

/-- The whole state of an editor at a glance. -/
structure Overview where
  blocks : List Block
  definitions : List BlockId
  callSites : List BlockId
  pendingReflexes : Nat
  isSuppressed : Bool
  listeners : Nat
  deriving DecidableEq

inductive StepError where
  | refused (error : EditorError)
  | detached
  | notAttached
  | alreadyAttached
  deriving DecidableEq, Repr

def StepError.message : StepError → String
  | refused error => error.message
  | detached => "controller is detached"
  | notAttached => "not attached"
  | alreadyAttached => "already attached"

inductive Answer where
  | nothing
  | flag (value : Bool)
  | count (value : Nat)
  | text (value : Option String)
  | yielded (yield : Yield)
  | identity (identity : Option VariableId)
  | identities (identities : List VariableId)
  | commands (commands : List Command)
  | overview (overview : Overview)
  | block (block : Option Block)
  | blocks (blocks : List Block)
  | parameters (parameters : Parameters)
  | events (events : List Event)
  | definition (definition : Option Definition)
  | definitions (definitions : List Definition)
  | callSite (call : Option CallSite)
  | callSites (calls : List CallSite)
  | outcome (outcome : SyncOutcome)
  | tally (tally : Option Tally)
  | members (members : List Member)
  | plan (plan : List Resolution)
  | applied (report : ApplyReport)
  | swept (report : SweepReport)
  | status (status : Status)
  | failed (error : StepError)
  deriving DecidableEq

/-- The answer to a step and what can be seen of its effects. -/
structure Report where
  answer : Answer
  /-- The new entries of the trace, oldest first. -/
  rows : List TraceRow
  /-- The newly logged commands, oldest first. -/
  commands : List Command
  deriving DecidableEq

namespace Workbench

def adoptEditor (bench : Workbench) (editor : Editor) : Workbench :=
  bench.adopt (bench.host.withEditor editor)

/-- Takes over the outcome of a command. -/
def adoptCommand (bench : Workbench) : Except EditorError Host → Answer × Workbench
  | .ok host => (.nothing, bench.adopt host)
  | .error error => (.failed (.refused error), bench)

def act (bench : Workbench) (action : UserAction) : Answer × Workbench :=
  match bench.host.editor.act action with
  | .ok (yield, editor) => (.yielded yield, bench.adoptEditor editor)
  | .error error => (.failed (.refused error), bench)

/-- The editor at a glance.  It is read directly, past the faults of the host. -/
def overview (bench : Workbench) : Overview where
  blocks := bench.host.editor.blocks
  definitions := (bench.host.editor.blocks.filter Block.isDefinition).map (·.id)
  callSites := (bench.host.editor.blocks.filter Block.isCallSite).map (·.id)
  pendingReflexes := bench.host.editor.reflexes.length
  isSuppressed := bench.host.editor.isSuppressed
  listeners := bench.listeners

def inspect (bench : Workbench) : Inspection → Answer × Workbench
  | .pendingReflexes => (.count bench.host.editor.reflexes.length, bench)
  | .commands => (.commands bench.host.editor.commands, bench)
  | .clearCommands => (.nothing, bench.adoptEditor bench.host.editor.clearCommands)
  | .contains id => (.flag (bench.host.editor.contains id), bench)
  | .listeners => (.count bench.listeners, bench)
  | .isSuppressed => (.flag bench.host.editor.isSuppressed, bench)
  | .state => (.overview bench.overview, bench)

/-- Replaces one of the added listeners by its image. -/
def modifyTap (bench : Workbench) (tap : Nat) (change : Tap → Tap) : Workbench :=
  { bench with taps := bench.taps.modify tap change }

/-- The events that one of the added listeners heard. -/
def heardBy (bench : Workbench) (tap : Nat) : List Event :=
  (bench.taps[tap]?.map (·.heard)).getD []

def request (bench : Workbench) : HostRequest → Answer × Workbench
  | .block id => (.block (bench.host.block? id), bench)
  | .blocksOfRole role => (.blocks (bench.host.blocksOfRole role), bench)
  | .field id key =>
      match bench.host.field id key with
      | .ok value => (.text value, bench)
      | .error error => (.failed (.refused error), bench)
  | .parameters id =>
      match bench.host.parameters id with
      | .ok parameters => (.parameters parameters, bench)
      | .error error => (.failed (.refused error), bench)
  | .declared name => (.identity (bench.host.declared? name), bench)
  | .command command => bench.adoptCommand (bench.host.perform command)
  | .suppress => (.nothing, bench.adopt bench.host.suppress)
  | .resume => (.nothing, bench.adopt bench.host.resume)
  | .subscribe => (.count bench.taps.length, { bench with taps := bench.taps ++ [⟨[], true⟩] })
  | .heard tap => (.events (bench.heardBy tap), bench)
  | .unsubscribe tap =>
      (.nothing, bench.modifyTap tap fun tap => { tap with isSubscribed := false })

def answer (bench : Workbench) : Query → Answer
  | .definitions => .definitions bench.host.definitions
  | .callSites => .callSites bench.host.callSites
  | .callersOf name => .callSites (bench.host.callersOf name)
  | .definition id => .definition (bench.host.definition? id)
  | .callSite id => .callSite (bench.host.callSite? id)
  | .definitionNamed name => .definition (bench.host.definitionNamed? name)
  | .nameOf id => .text (bench.host.nameOf? id)
  | .parameterCount id => .count (bench.host.parameterCount id)

/-- Makes a plan the current one. -/
def keepPlan (bench : Workbench) (plan : List Resolution) : Answer × Workbench :=
  (.plan plan, { bench with plan := plan })

/-- Carries out a plan, which becomes the current one. -/
def carryOut (bench : Workbench) (plan : List Resolution) : Answer × Workbench :=
  let (report, host) := bench.host.apply plan
  (.applied report, { bench with plan := plan }.adopt host)

def reconcile (bench : Workbench) : Reconciliation → Answer × Workbench
  | .identitiesOf parameters => (.identities (bench.host.identitiesOf parameters), bench)
  | .sync call definition =>
      let (outcome, host) := bench.host.sync call definition
      (.outcome outcome, bench.adopt host)
  | .syncCallers definition =>
      match bench.host.definition? definition with
      | none => (.tally none, bench)
      | some found =>
          let (tally, host) := bench.host.syncCallers found
          (.tally (some tally), bench.adopt host)
  | .members => (.members bench.host.members, bench)
  | .plan => bench.keepPlan (CallBinding.plan bench.host.members)
  | .planFamily name => bench.keepPlan (CallBinding.planFamily bench.host.members name)
  | .planSpawned name prior =>
      bench.keepPlan (CallBinding.planSpawned bench.host.members name prior)
  | .apply plan => bench.carryOut (plan.getD bench.plan)
  | .sweep =>
      let (report, host) := bench.host.sweep
      (.swept report, bench.adopt host)

/-- Attaches a controller once pending work has run, unless there is a handle already. -/
def attach (bench : Workbench) (cleanup : Cleanup) (settings : Settings) : Answer × Workbench :=
  let settled := bench.settle
  match settled.seat with
  | .vacant => (.nothing, { settled with seat := .running (.new settings cleanup) })
  | _ => (.failed .alreadyAttached, settled)

/-- Asks the controller for its status once its pending work has run. -/
def status (bench : Workbench) : Answer × Workbench :=
  match bench.seat with
  | .vacant => (.failed .notAttached, bench)
  | _ =>
      let settled := bench.settle
      match settled.controller? with
      | some controller => (.status controller.status, settled)
      | none => (.failed .detached, settled)

/-- Asks the controller to stop.  It handles the messages before this request and no alarm. -/
def dismiss (bench : Workbench) : Workbench :=
  { bench with seat := Seat.post [.detach] bench.seat }.drain

def vacate (bench : Workbench) : Workbench :=
  { bench with seat := .vacant }

/-- Stops the controller and gives up the handle. -/
def detach (bench : Workbench) : Answer × Workbench :=
  match bench.seat with
  | .vacant => (.failed .notAttached, bench)
  | _ =>
      let dismissed := bench.dismiss
      match dismissed.seat with
      | .vacant => (.nothing, dismissed)
      | _ => (.failed .detached, dismissed.vacate)

/-- Gives up the handle, which stops the controller. -/
def drop (bench : Workbench) : Answer × Workbench :=
  match bench.seat with
  | .vacant => (.failed .notAttached, bench)
  | _ => (.nothing, bench.dismiss.vacate)

def step (bench : Workbench) : Step → Answer × Workbench
  | .user action => bench.act action
  | .inspect inspection => bench.inspect inspection
  | .host request => bench.request request
  | .query query => (bench.answer query, bench)
  | .reconcile reconciliation => bench.reconcile reconciliation
  | .setFaults id faults => (.nothing, { bench with host := bench.host.setFaults id faults })
  | .setLeaky leaky => (.nothing, { bench with host := { bench.host with leaky := leaky } })
  | .attach cleanup settings => bench.attach cleanup settings
  | .advance milliseconds => (.nothing, bench.advanceTo (bench.clock + milliseconds))
  | .status => bench.status
  | .detach => bench.detach
  | .drop => bench.drop

/-- Does one step and reports on it. -/
def stepReport (bench : Workbench) (step : Step) : Report × Workbench :=
  let (answer, next) := bench.step step
  let newRows := next.trace.length - bench.trace.length
  (⟨answer, (next.trace.take newRows).reverse,
    next.host.editor.commands.drop bench.host.editor.commands.length⟩, next)

/-- Does several steps and reports on each. -/
def run (bench : Workbench) : List Step → List Report × Workbench
  | [] => ([], bench)
  | step :: rest =>
      let (report, next) := bench.stepReport step
      let (reports, last) := next.run rest
      (report :: reports, last)

end Workbench
end CallBinding
