import CallBinding.Host.Query

/-!
# Synchronising arguments

A call site is synchronised with a definition when its arguments are the
definition's labels, each with its identity.  Identities come from the
definition itself when it has one for each label, and from the namespace
otherwise.  Arguments that cannot be completed are never written.
-/

namespace CallBinding

/-- What one synchronisation did. -/
inductive SyncOutcome where
  /-- The arguments were written. -/
  | updated
  /-- The arguments were right already. -/
  | unchanged
  /-- Too few identities are known, and nothing was written. -/
  | ambiguous (resolved expected : Nat)
  /-- One of the blocks could not be read or written. -/
  | moot
  deriving DecidableEq, Repr

/-- How many synchronisations ended in which way. -/
structure Tally where
  updated : Nat
  unchanged : Nat
  ambiguous : Nat
  moot : Nat
  deriving DecidableEq, Repr

namespace Tally

def zero : Tally :=
  ⟨0, 0, 0, 0⟩

def record (tally : Tally) : SyncOutcome → Tally
  | .updated => { tally with updated := tally.updated + 1 }
  | .unchanged => { tally with unchanged := tally.unchanged + 1 }
  | .ambiguous _ _ => { tally with ambiguous := tally.ambiguous + 1 }
  | .moot => { tally with moot := tally.moot + 1 }

def merge (a b : Tally) : Tally :=
  ⟨a.updated + b.updated, a.unchanged + b.unchanged, a.ambiguous + b.ambiguous, a.moot + b.moot⟩

end Tally

namespace Host

/-- The identities of parameters: their own when aligned, else those of the declared labels. -/
def identitiesOf (host : Host) (parameters : Parameters) : List VariableId :=
  if parameters.isAligned then
    parameters.identities
  else
    parameters.labels.filterMap host.declared?

/-- Makes the arguments of a call site those of a definition. -/
def sync (host : Host) (call definition : BlockId) : SyncOutcome × Host :=
  match host.parameters definition with
  | .error _ => (.moot, host)
  | .ok parameters =>
      let identities := host.identitiesOf parameters
      if identities.length ≠ parameters.count then
        (.ambiguous identities.length parameters.count, host)
      else
        let desired : Parameters := ⟨parameters.labels, identities⟩
        match host.parameters call with
        | .error _ => (.moot, host)
        | .ok current =>
            if current = desired then
              (.unchanged, host)
            else
              match host.setParameters call desired with
              | .ok written => (.updated, written)
              | .error _ => (.moot, host)

/-- Synchronises the listed call sites with one definition, in turn. -/
def syncEach (host : Host) (definition : BlockId) : List CallSite → Tally → Tally × Host
  | [], tally => (tally, host)
  | call :: rest, tally =>
      let (outcome, synced) := host.sync call.id definition
      synced.syncEach definition rest (tally.record outcome)

/-- Synchronises every call site that calls a definition's name. -/
def syncCallers (host : Host) (definition : Definition) : Tally × Host :=
  host.syncEach definition.id (host.callersOf definition.name) .zero

end Host
end CallBinding
