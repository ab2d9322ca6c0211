import CallBinding.Controller.Handle
import CallBinding.Proofs.Reconcile.Leaky

/-!
# Controllers of leaky hosts

A controller takes the same turns on a leaky host as on an exact one: the news
that it is told goes with the same definitions, and it issues the same commands
and goes on in the same way.
-/

namespace CallBinding

theorem Message.ofEvent_withLeaky (host : Host) (leaky : Bool) (event : Event) :
    Message.ofEvent (host.withLeaky leaky) event = Message.ofEvent host event := by
  rw [ofEvent, ofEvent, Host.block?_withLeaky, Host.definitions_withLeaky]

/-- The turn on a host that is leaky or not. -/
def Turn.withLeaky (turn : Turn) (leaky : Bool) : Turn :=
  { turn with host := turn.host.withLeaky leaky }

namespace Host

variable (host : Host) (leaky : Bool)

@[simp] theorem usable_withLeaky (prior : List BlockId) :
    (host.withLeaky leaky).usable prior = host.usable prior := by
  rw [usable, usable, definitions_withLeaky]

@[simp] theorem secondChoice?_withLeaky (prior : List BlockId) (current : String) :
    (host.withLeaky leaky).secondChoice? prior current = host.secondChoice? prior current := by
  rw [secondChoice?, secondChoice?, definitionNamed?_withLeaky, usable_withLeaky]

theorem giveName_withLeaky (call : BlockId) (current name : String) :
    (host.withLeaky leaky).giveName call current name =
      (host.giveName call current name).map (·.withLeaky leaky) := by
  rw [giveName, giveName, setField_withLeaky]
  split <;> rfl

/-! ## Spawned definitions -/

theorem checkSpawned_withLeaky (definition : BlockId) (prior : List BlockId) :
    (host.withLeaky leaky).checkSpawned definition prior =
      (host.checkSpawned definition prior).map id (·.withLeaky leaky) := by
  rw [checkSpawned, checkSpawned, definition?_withLeaky]
  cases host.definition? definition with
  | none => rfl
  | some found =>
      dsimp only
      rw [members_withLeaky, apply_withLeaky]
      generalize host.apply (planSpawned host.members found.name prior) = applied
      rfl

theorem disposeIfScaffold_withLeaky (definition : BlockId) :
    (host.withLeaky leaky).disposeIfScaffold definition =
      (host.disposeIfScaffold definition).withLeaky leaky := by
  rw [disposeIfScaffold, disposeIfScaffold, definition?_withLeaky]
  cases host.definition? definition with
  | none => rfl
  | some found =>
      dsimp only
      rw [callersOf_withLeaky, dispose_withLeaky]
      split <;> rfl

theorem settleUnchecked_withLeaky (prior : List BlockId) (definition : BlockId) :
    settleUnchecked prior (host.withLeaky leaky) definition =
      (settleUnchecked prior host definition).withLeaky leaky := by
  rw [settleUnchecked, settleUnchecked, checkSpawned_withLeaky]
  generalize host.checkSpawned definition prior = check
  dsimp only [Prod.map, id]
  rw [disposeIfScaffold_withLeaky]
  split <;> rfl

/-- Several steps that are the same on a leaky host are the same on it one after another. -/
theorem foldl_withLeaky {step : Host → BlockId → Host}
    (hstep : ∀ host id, step (host.withLeaky leaky) id = (step host id).withLeaky leaky)
    (ids : List BlockId) :
    ids.foldl step (host.withLeaky leaky) = (ids.foldl step host).withLeaky leaky := by
  induction ids generalizing host with
  | nil => rfl
  | cons id rest ih =>
      rw [List.foldl_cons, hstep, ih]
      rfl

theorem settleSpawned_withLeaky (session : Session) :
    (host.withLeaky leaky).settleSpawned session =
      (host.settleSpawned session).withLeaky leaky := by
  rw [settleSpawned, settleSpawned,
    host.foldl_withLeaky leaky fun host id => host.settleUnchecked_withLeaky leaky session.prior id,
    foldl_withLeaky _ leaky fun host id => host.disposeIfScaffold_withLeaky leaky id]

end Host

namespace Controller

variable (controller : Controller) (now : Nat) (host : Host) (leaky : Bool)

/-! ## Binding -/

theorem nameCallSite_withLeaky (call : BlockId) (prior : List BlockId) :
    controller.nameCallSite (host.withLeaky leaky) call prior =
      (controller.nameCallSite host call prior).map id (Prod.map id (·.withLeaky leaky)) := by
  rw [nameCallSite, nameCallSite, Host.nameOf?_withLeaky, Host.usable_withLeaky]
  cases host.nameOf? call with
  | none => rfl
  | some current =>
      dsimp only
      generalize controller.nameFor (host.usable prior) current = name
      rw [Host.giveName_withLeaky]
      cases host.giveName call current name <;> rfl

theorem bindCallSite_withLeaky (call : BlockId) (prior : List BlockId) :
    controller.bindCallSite (host.withLeaky leaky) call prior =
      (controller.bindCallSite host call prior).map id (·.withLeaky leaky) := by
  have hsuppressed : (host.withLeaky leaky).suppress = host.suppress.withLeaky leaky := rfl
  rw [bindCallSite, bindCallSite, hsuppressed, nameCallSite_withLeaky]
  obtain ⟨binding, named, renamed⟩ := controller.nameCallSite host.suppress call prior
  cases binding with
  | none => rfl
  | some definition =>
      dsimp only [Prod.map, id]
      rw [Host.sync_withLeaky]
      rfl

theorem onCallSiteCreated_withLeaky (call : BlockId) (prior : List BlockId) :
    controller.onCallSiteCreated now (host.withLeaky leaky) call prior =
      (controller.onCallSiteCreated now host call prior).map id (·.withLeaky leaky) := by
  rw [onCallSiteCreated, onCallSiteCreated, Host.block?_withLeaky, bindCallSite_withLeaky]
  cases host.block? call <;> rfl

theorem rebind_withLeaky (call : BlockId) (current : String) (definition : Definition) :
    controller.rebind (host.withLeaky leaky) call current definition =
      (controller.rebind host call current definition).map id (·.withLeaky leaky) := by
  rw [rebind, rebind, Host.giveName_withLeaky]
  cases host.giveName call current definition.name with
  | error _ => rfl
  | ok named =>
      dsimp only [Except.map]
      rw [Host.sync_withLeaky]
      rfl

theorem onRecheck_withLeaky (session : SessionId) :
    controller.onRecheck (host.withLeaky leaky) session =
      (controller.onRecheck host session).map id (·.withLeaky leaky) := by
  rw [onRecheck, onRecheck]
  cases controller.session? session with
  | none => rfl
  | some found =>
      dsimp only
      rw [Host.nameOf?_withLeaky]
      cases host.nameOf? found.callSite with
      | none => rfl
      | some current =>
          dsimp only
          rw [Host.secondChoice?_withLeaky]
          cases host.secondChoice? found.prior current with
          | none => rfl
          | some definition => exact rebind_withLeaky _ host leaky _ _ _

/-! ## Turns -/

theorem onSpawnCheck_withLeaky (session : SessionId) (definition : BlockId) :
    controller.onSpawnCheck (host.withLeaky leaky) session definition =
      (controller.onSpawnCheck host session definition).map id (·.withLeaky leaky) := by
  rw [onSpawnCheck, onSpawnCheck]
  cases controller.session? session with
  | none => rfl
  | some found =>
      dsimp only
      rw [Host.checkSpawned_withLeaky]
      rfl

theorem onWindow_withLeaky (session : SessionId) :
    controller.onWindow now (host.withLeaky leaky) session =
      (controller.onWindow now host session).map id (·.withLeaky leaky) := by
  rw [onWindow, onWindow]
  cases controller.session? session with
  | none => rfl
  | some found =>
      dsimp only
      rw [Host.settleSpawned_withLeaky]
      rfl

theorem onDebounce_withLeaky (generation : Nat) :
    controller.onDebounce (host.withLeaky leaky) generation =
      (controller.onDebounce host generation).withLeaky leaky := by
  have hcleanup (controller : Controller) :
      controller.runCleanup (host.withLeaky leaky) =
        (controller.runCleanup host).withLeaky leaky := by
    rw [runCleanup, runCleanup, Host.sweep_withLeaky]
    cases controller.cleanup <;> rfl
  rw [onDebounce, onDebounce, Host.callSites_withLeaky]
  dsimp only
  rw [hcleanup]
  split
  · rfl
  · split <;> rfl

theorem onAlarm_withLeaky (alarm : Alarm) :
    controller.onAlarm now (host.withLeaky leaky) alarm =
      (controller.onAlarm now host alarm).withLeaky leaky := by
  cases alarm with
  | spawnCheck session definition =>
      rw [onAlarm, onAlarm, onSpawnCheck_withLeaky]
      rfl
  | recheck session =>
      rw [onAlarm, onAlarm, onRecheck_withLeaky]
      rfl
  | window session =>
      rw [onAlarm, onAlarm, onWindow_withLeaky]
      rfl
  | debounce generation => exact controller.onDebounce_withLeaky host leaky generation

/-- A controller handles a message in the same way, whether its host is leaky or not. -/
theorem handle_withLeaky (message : Message) :
    controller.handle now (host.withLeaky leaky) message =
      (controller.handle now host message).withLeaky leaky := by
  cases message with
  | event event =>
      rw [handle, handle, onEvent, onEvent, Host.block?_withLeaky]
      rfl
  | callSiteCreated call prior =>
      rw [handle, handle, onCallSiteCreated_withLeaky]
      rfl
  | due alarm => exact controller.onAlarm_withLeaky now host leaky alarm
  | detach => rfl

end Controller
end CallBinding
