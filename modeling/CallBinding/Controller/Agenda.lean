import CallBinding.Graph.Block

/-!
# Agendas

A controller asks to be woken later by arming alarms.  The agenda holds the
alarms that are armed and have not gone off, in the order of their arming, each
with the time at which it goes off.  However long its delay, every alarm goes
off within thirty years.
-/

namespace CallBinding

/-- The number of a session; sessions are numbered in the order of their opening. -/
structure SessionId where
  number : Nat
  deriving DecidableEq, Repr

/-- What a controller can ask to be woken for. -/
inductive Alarm where
  /-- A definition created during a session is due for its check. -/
  | spawnCheck (session : SessionId) (definition : BlockId)
  /-- The call site of a session is due for its second binding. -/
  | recheck (session : SessionId)
  /-- A session is due to close. -/
  | window (session : SessionId)
  /-- The graph has been quiet since the arming of this generation. -/
  | debounce (generation : Nat)
  deriving DecidableEq, Repr

/-- The session that an alarm belongs to. -/
def Alarm.session? : Alarm → Option SessionId
  | spawnCheck session _ => some session
  | recheck session => some session
  | window session => some session
  | debounce _ => none

/-- An armed alarm. -/
structure Timer where
  /-- The time at which the alarm goes off. -/
  deadline : Nat
  alarm : Alarm
  deriving DecidableEq, Repr

/-- The armed alarms, in the order of their arming. -/
abbrev Agenda :=
  List Timer

namespace Agenda

/-- The longest that an alarm waits: thirty years of 365 days, in milliseconds. -/
def longestWait : Nat :=
  30 * 365 * 24 * 60 * 60 * 1000

/-- Arms an alarm that goes off after a delay, or after the longest wait if the delay exceeds it. -/
def arm (agenda : Agenda) (now : Nat) (delay : UInt64) (alarm : Alarm) : Agenda :=
  agenda ++ [⟨now + min delay.toNat longestWait, alarm⟩]

/-- Takes an alarm off the agenda. -/
def cancel (agenda : Agenda) (alarm : Alarm) : Agenda :=
  agenda.filter fun timer => timer.alarm ≠ alarm

/-- Takes every alarm of a session off the agenda. -/
def cancelSession (agenda : Agenda) (session : SessionId) : Agenda :=
  agenda.filter fun timer => timer.alarm.session? ≠ some session

/-- The earliest time at which an alarm goes off. -/
def nextDeadline? (agenda : Agenda) : Option Nat :=
  (agenda.map (·.deadline)).min?

/-- The alarms that go off at or before a time, in the order of their arming. -/
def dueBy (agenda : Agenda) (time : Nat) : List Alarm :=
  (agenda.filter fun timer => timer.deadline ≤ time).map (·.alarm)

/-- The agenda without the alarms that go off at or before a time. -/
def laterThan (agenda : Agenda) (time : Nat) : Agenda :=
  agenda.filter fun timer => time < timer.deadline

end Agenda
end CallBinding
