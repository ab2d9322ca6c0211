import CallBinding.Reconcile.Apply

/-!
# Sweeps

A sweep removes the duplicates of every family and then synchronises every
call site with the definition that it names.  On a graph that is in order it
issues no command.
-/

namespace CallBinding

structure SweepReport where
  disposed : List Resolution
  rebound : Nat
  sync : Tally
  deriving DecidableEq, Repr

/-- A clean sweep changed nothing. -/
def SweepReport.isClean (report : SweepReport) : Bool :=
  report.disposed.isEmpty && report.rebound = 0 && report.sync.updated = 0

namespace Host

/-- Synchronises the listed call sites, in turn, each with the definition that it names. -/
def syncNamed (host : Host) : List CallSite → Tally → Tally × Host
  | [], tally => (tally, host)
  | call :: rest, tally =>
      match host.definitionNamed? call.name with
      | none => host.syncNamed rest tally
      | some definition =>
          let (outcome, synced) := host.sync call.id definition.id
          synced.syncNamed rest (tally.record outcome)

/-- Removes the duplicates of every family and synchronises every bound call site. -/
def sweep (host : Host) : SweepReport × Host :=
  let (applied, deduplicated) := host.apply (plan host.members)
  let (tally, synced) := deduplicated.syncNamed deduplicated.callSites applied.sync
  (⟨applied.disposed, applied.rebound, tally⟩, synced)

end Host
end CallBinding
