import CallBinding.Proofs.Controller.Debounce
import CallBinding.Proofs.Reconcile.Sweep

/-!
# The log of what handlers do

A host's log is complete if replaying the commands that were added to it, on
the graph as it was before them, gives the graph as it is.  Commands are the
only means by which handlers change a graph, and the log is not concerned with
suppressions, so this holds of every handler, on any host and whatever its
faults.
-/

namespace CallBinding

namespace Host

/-- The log goes on by commands that make of the former graph the present one. -/
def Records (host after : Host) : Prop :=
  ∃ issued, after.editor.commands = host.editor.commands ++ issued ∧
    after.editor.blocks = Command.replayAll host.editor.blocks issued

variable {host mid after named : Host}

namespace Records

/-- Where neither the log nor the graph is touched. -/
theorem of_eq (hcommands : after.editor.commands = host.editor.commands)
    (hblocks : after.editor.blocks = host.editor.blocks) : host.Records after :=
  ⟨[], hcommands.trans (List.append_nil _).symm, hblocks⟩

theorem refl (host : Host) : host.Records host :=
  .of_eq rfl rfl

/-- A suppression is not logged, and neither is its end. -/
theorem suppress (host : Host) : host.Records host.suppress :=
  .of_eq rfl rfl

theorem resume (host : Host) : host.Records host.resume :=
  .of_eq rfl rfl

theorem trans (hfirst : host.Records mid) (hlast : mid.Records after) : host.Records after := by
  obtain ⟨first, hfirstLog, hfirstBlocks⟩ := hfirst
  obtain ⟨last, hlastLog, hlastBlocks⟩ := hlast
  refine ⟨first ++ last, ?_, ?_⟩
  · rw [hlastLog, hfirstLog, List.append_assoc]
  · rw [hlastBlocks, hfirstBlocks, Command.replayAll_append]

theorem of_issues {condition : List Block → Command → Prop} (h : Issues condition host after) :
    host.Records after := by
  obtain ⟨commands, -, rfl⟩ := h
  exact ⟨commands, rfl, rfl⟩

/-- Several steps, each of which is recorded. -/
theorem foldl {step : Host → BlockId → Host}
    (hstep : ∀ (host : Host) (id : BlockId), host.Records (step host id))
    (host : Host) (ids : List BlockId) : host.Records (ids.foldl step host) := by
  induction ids generalizing host with
  | nil => exact .refl host
  | cons id rest ih => exact (hstep host id).trans (ih (step host id))

end Records

theorem records_giveName {call : BlockId} {current name : String}
    (h : host.giveName call current name = .ok named) : host.Records named := by
  unfold giveName at h
  split at h
  · obtain rfl := Except.ok.inj h
    exact .refl host
  · obtain rfl := setField_ok h
    exact ⟨[_], rfl, rfl⟩

/-! ## Spawned definitions -/

theorem records_checkSpawned (host : Host) (definition : BlockId) (prior : List BlockId) :
    host.Records (host.checkSpawned definition prior).2 := by
  unfold checkSpawned
  split
  · exact .refl host
  · exact .of_issues (host.apply_issues _)

theorem records_disposeIfScaffold (host : Host) (definition : BlockId) :
    host.Records (host.disposeIfScaffold definition) := by
  unfold disposeIfScaffold
  split
  · exact .refl host
  · split
    · exact .refl host
    · exact .of_issues (host.dispose_issues definition)

theorem records_settleUnchecked (prior : List BlockId) (host : Host) (definition : BlockId) :
    host.Records (settleUnchecked prior host definition) := by
  have hchecked := host.records_checkSpawned definition prior
  simp only [settleUnchecked]
  split
  · exact hchecked.trans (records_disposeIfScaffold _ definition)
  · exact hchecked

theorem records_settleSpawned (host : Host) (session : Session) :
    host.Records (host.settleSpawned session) :=
  (Records.foldl (records_settleUnchecked session.prior) host session.spawnChecks).trans
    (Records.foldl records_disposeIfScaffold _ session.spawned)

end Host

namespace Controller

open Host (Records)

/-! ## Binding -/

theorem records_nameCallSite (controller : Controller) (host : Host) (call : BlockId)
    (prior : List BlockId) : host.Records (controller.nameCallSite host call prior).2.2 := by
  unfold nameCallSite
  split
  · exact .refl host
  · dsimp only
    split
    · exact .refl host
    next named hnamed => exact Host.records_giveName hnamed

theorem records_bindCallSite (controller : Controller) (host : Host) (call : BlockId)
    (prior : List BlockId) : host.Records (controller.bindCallSite host call prior).2 := by
  have hnamed := (Records.suppress host).trans
    (controller.records_nameCallSite host.suppress call prior)
  refine Records.trans ?_ (.resume _)
  split
  · exact hnamed
  next definition _ => exact hnamed.trans (.of_issues (Host.sync_issues _ call definition))

theorem records_onCallSiteCreated (controller : Controller) (now : Nat) (host : Host)
    (call : BlockId) (prior : List BlockId) :
    host.Records (controller.onCallSiteCreated now host call prior).2 := by
  unfold onCallSiteCreated
  split
  · exact .refl host
  · exact controller.records_bindCallSite host call prior

theorem records_rebind (controller : Controller) (host : Host) (call : BlockId)
    (current : String) (definition : Definition) :
    host.Records (controller.rebind host call current definition).2 := by
  unfold rebind
  split
  · exact .refl host
  next named hnamed =>
    exact (Host.records_giveName hnamed).trans (.of_issues (named.sync_issues call definition.id))

theorem records_onRecheck (controller : Controller) (host : Host) (id : SessionId) :
    host.Records (controller.onRecheck host id).2 := by
  unfold onRecheck
  split
  · exact .refl host
  · dsimp only
    split
    · exact .refl host
    · split
      · exact .refl host
      · exact records_rebind _ host _ _ _

/-! ## Messages -/

theorem records_onDebounce (controller : Controller) (host : Host) (generation : Nat) :
    host.Records (controller.onDebounce host generation).host := by
  have hends := controller.endsWait_onDebounce host generation
  generalize controller.onDebounce host generation = turn at hends ⊢
  cases hends with
  | stale _ | deferred _ _ | counted _ _ _ | crashed _ _ _ => exact .refl host
  | swept _ _ _ => exact .of_issues host.sweep_issues

theorem records_onAlarm (controller : Controller) (now : Nat) (host : Host) (alarm : Alarm) :
    host.Records (controller.onAlarm now host alarm).host := by
  cases alarm with
  | spawnCheck id definition =>
      simp only [onAlarm, Turn.proceed, onSpawnCheck]
      split
      · exact .refl host
      next session _ => exact host.records_checkSpawned definition session.prior
  | recheck id => exact controller.records_onRecheck host id
  | window id =>
      simp only [onAlarm, Turn.proceed, onWindow]
      split
      · exact .refl host
      next session _ => exact host.records_settleSpawned session
  | debounce generation => exact controller.records_onDebounce host generation

theorem records_handle (controller : Controller) (now : Nat) (host : Host) (message : Message) :
    host.Records (controller.handle now host message).host := by
  cases message with
  | event event => exact .refl host
  | callSiteCreated call prior =>
      exact controller.records_onCallSiteCreated now host call prior
  | due alarm => exact controller.records_onAlarm now host alarm
  | detach => exact .refl host

end Controller
end CallBinding
