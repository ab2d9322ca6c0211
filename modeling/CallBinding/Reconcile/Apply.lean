import CallBinding.Family.Plan
import CallBinding.Reconcile.Sync

/-!
# Carrying out plans

Each resolution of a plan gives the callers of the removed definition the name
of the kept one, disposes of the removed definition, and synchronises the
callers of the survivor.  The graph may have changed since the planning, so
every step reads it anew, and a definition that is gone already is skipped.
-/

namespace CallBinding

structure ApplyReport where
  /-- The resolutions carried out, in order. -/
  disposed : List Resolution
  /-- How many resolutions found their definition gone. -/
  skipped : Nat
  /-- How many call sites were given another name. -/
  rebound : Nat
  sync : Tally
  deriving DecidableEq, Repr

/-- The report on a plan that has not been started. -/
def ApplyReport.blank : ApplyReport :=
  ⟨[], 0, 0, .zero⟩

namespace Host

/-- The live definitions as the rules see them. -/
def members (host : Host) : List Member :=
  host.definitions.map Definition.asMember

/-- Gives the listed call sites a name, and counts those that took it. -/
def renameEach (host : Host) (name : String) : List CallSite → Nat → Nat × Host
  | [], renamed => (renamed, host)
  | call :: rest, renamed =>
      match host.setField call.id nameField name with
      | .ok written => written.renameEach name rest (renamed + 1)
      | .error _ => host.renameEach name rest renamed

/-- Gives the callers of a removed definition the name of the kept one, where these differ. -/
def rebindCallers (host : Host) (resolution : Resolution) : Nat × Host :=
  if resolution.removedName = resolution.keptName then
    (0, host)
  else
    host.renameEach resolution.keptName (host.callersOf resolution.removedName) 0

/-- The definition that a resolution kept, or else the first one of its name. -/
def survivorOf? (host : Host) (resolution : Resolution) : Option Definition :=
  (host.definition? resolution.kept).or (host.definitionNamed? resolution.keptName)

/-- Synchronises the callers of the definition that a resolution kept, if there is one. -/
def syncSurvivor (host : Host) (resolution : Resolution) : Tally × Host :=
  match host.survivorOf? resolution with
  | none => (.zero, host)
  | some survivor => host.syncCallers survivor

/-- Carries out one resolution and extends the report. -/
def resolve (host : Host) (resolution : Resolution) (report : ApplyReport) :
    ApplyReport × Host :=
  match host.definition? resolution.removed with
  | none => ({ report with skipped := report.skipped + 1 }, host)
  | some _ =>
      let (renamed, rebound) := host.rebindCallers resolution
      let disposed := rebound.dispose resolution.removed
      let (tally, synced) := disposed.syncSurvivor resolution
      ({ report with
          disposed := report.disposed ++ [resolution]
          rebound := report.rebound + renamed
          sync := report.sync.merge tally },
        synced)

/-- Carries out resolutions in order and extends the report. -/
def resolveAll (host : Host) : List Resolution → ApplyReport → ApplyReport × Host
  | [], report => (report, host)
  | resolution :: rest, report =>
      let (extended, resolved) := host.resolve resolution report
      resolved.resolveAll rest extended

/-- Carries out a plan. -/
def apply (host : Host) (plan : List Resolution) : ApplyReport × Host :=
  host.resolveAll plan .blank

end Host
end CallBinding
