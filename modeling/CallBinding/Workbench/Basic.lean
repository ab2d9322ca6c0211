import CallBinding.Controller.Handle

/-!
# Workbenches

A workbench runs a host with listeners and at most one controller on a virtual
clock.  One listener records a trace from the beginning; others can be added.
The controller handles its mailbox and its alarms only while the workbench
advances its clock; what happens in between is merely posted to the mailbox.
-/

namespace CallBinding

/-- An entry of the trace. -/
inductive TraceRow where
  | heard (time : Nat) (event : Event)
  | cleanup (time : Nat) (cleanup : Cleanup)
  deriving DecidableEq, Repr

/-- A listener beside the recording one. -/
structure Tap where
  /-- The events it heard, oldest first. -/
  heard : List Event
  isSubscribed : Bool
  deriving DecidableEq, Repr

def Tap.hear (events : List Event) (tap : Tap) : Tap :=
  if tap.isSubscribed then { tap with heard := tap.heard ++ events } else tap

/-- Who holds the handle of a controller. -/
inductive Seat where
  | vacant
  /-- The handle's controller is running. -/
  | running (controller : Controller)
  /-- The handle's controller has failed. -/
  | crashed
  deriving DecidableEq, Repr

/-- A controller's seat after messages were posted to it. -/
def Seat.post (messages : List Message) : Seat → Seat
  | .running controller =>
      .running { controller with mailbox := controller.mailbox ++ messages }
  | seat => seat

structure Workbench where
  host : Host
  /-- The time in milliseconds. -/
  clock : Nat
  /-- The trace, latest entry first. -/
  trace : List TraceRow
  taps : List Tap
  seat : Seat
  /-- The number of failed controllers, whose listeners stay subscribed. -/
  orphans : Nat
  /-- The plan made or given last. -/
  plan : List Resolution
  deriving DecidableEq

namespace Workbench

/-- A workbench at time zero with an empty editor. -/
def new (autoDefine : Bool) : Workbench where
  host := .faithful (.new autoDefine)
  clock := 0
  trace := []
  taps := []
  seat := .vacant
  orphans := 0
  plan := []

def controller? (bench : Workbench) : Option Controller :=
  match bench.seat with
  | .running controller => some controller
  | _ => none

/-- The number of listeners: the recording one, the subscribed others, the running controller
and the failed ones. -/
def listeners (bench : Workbench) : Nat :=
  1 + (bench.taps.filter (·.isSubscribed)).length + bench.orphans +
    if bench.controller?.isSome then 1 else 0

/-- Tells every listener of some events, in order. -/
def deliver (bench : Workbench) (events : List Event) : Workbench :=
  { bench with
    trace := (events.map (.heard bench.clock)).reverse ++ bench.trace
    taps := bench.taps.map (Tap.hear events)
    seat := Seat.post (events.map (Message.ofEvent bench.host)) bench.seat }

/-- Takes over the next state of the host and delivers the events in its outbox. -/
def adopt (bench : Workbench) (host : Host) : Workbench :=
  { bench with host := host.withEditor host.editor.delivered }.deliver host.editor.outbox

/-! ## The controller's work -/

/-- Takes over the way in which the controller goes on. -/
def seatFate (bench : Workbench) : Fate → Workbench
  | .running controller => { bench with seat := .running controller }
  | .detached => { bench with seat := .vacant }
  | .crashed => { bench with seat := .crashed, orphans := bench.orphans + 1 }

def takeTurn (bench : Workbench) (turn : Turn) : Workbench :=
  let started := (turn.cleanup.map (TraceRow.cleanup bench.clock)).toList
  ({ bench with trace := started ++ bench.trace }.seatFate turn.fate).adopt turn.host

/-- Lets the controller handle the first message in its mailbox. -/
def handleNext (bench : Workbench) : Workbench :=
  match bench.controller? with
  | none => bench
  | some controller =>
      match controller.mailbox with
      | [] => bench
      | message :: rest =>
          bench.takeTurn ({ controller with mailbox := rest }.handle bench.clock bench.host message)

def handleMany : Nat → Workbench → Workbench
  | 0, bench => bench
  | n + 1, bench => handleMany n bench.handleNext

def waiting (bench : Workbench) : Nat :=
  (bench.controller?.map fun controller => controller.mailbox.length).getD 0

/-- Lets the controller handle the messages that are there now. -/
def round (bench : Workbench) : Workbench :=
  handleMany bench.waiting bench

/-- Empties the mailbox.  All that a message leads to is events of changes and deletions, which
lead to nothing themselves, so the second round leaves no message. -/
def drain (bench : Workbench) : Workbench :=
  bench.round.round

/-- The earliest time at which an alarm of the controller goes off. -/
def nextDeadline? (bench : Workbench) : Option Nat :=
  bench.controller?.bind fun controller => controller.agenda.nextDeadline?

/-- Moves the clock to a time and lets the alarms of that time go off. -/
def wake (bench : Workbench) (time : Nat) : Workbench :=
  match bench.controller? with
  | none => { bench with clock := time }
  | some controller => { bench with clock := time, seat := .running (controller.wake time) }

/-- Advances to a time, waking the controller at most a given number of times. -/
def advanceWithin : Nat → Nat → Workbench → Workbench
  | 0, _, bench => bench
  | wakes + 1, target, bench =>
      let drained := bench.drain
      match drained.nextDeadline? with
      | none => { drained with clock := target }
      | some deadline =>
          if deadline ≤ target then
            advanceWithin wakes target (drained.wake deadline)
          else
            { drained with clock := target }

/-- More wakes than it takes to reach a time.  Each alarm and each message leads to a few wakes at
one time, and beyond these the clock moves on between two wakes.  Only a host whose faults undo
every cleanup can use up the limit, when its controller cleans up again without a delay. -/
def wakeLimit (bench : Workbench) (target : Nat) : Nat :=
  let armed := (bench.controller?.map fun controller => controller.agenda.length).getD 0
  4 * (target - bench.clock + armed + 2 * bench.waiting + bench.host.editor.blocks.length + 4)

/-- Advances to a time: messages are handled first, then alarms go off one time after another. -/
def advanceTo (bench : Workbench) (target : Nat) : Workbench :=
  advanceWithin (bench.wakeLimit target) target bench

/-- Lets pending work run without moving the clock. -/
def settle (bench : Workbench) : Workbench :=
  bench.advanceTo bench.clock

end Workbench
end CallBinding
