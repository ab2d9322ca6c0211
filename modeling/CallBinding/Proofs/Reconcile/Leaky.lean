import CallBinding.Proofs.Host.Leaky
import CallBinding.Reconcile.Sweep

/-!
# Reconciling leaky hosts

Synchronising, carrying out a plan and sweeping read a host by role only.  Each
of them comes to the same report, and to the same editor, whether the host is
leaky or not.
-/

namespace CallBinding
namespace Host

variable (host : Host) (leaky : Bool)

@[simp] theorem identitiesOf_withLeaky (parameters : Parameters) :
    (host.withLeaky leaky).identitiesOf parameters = host.identitiesOf parameters := rfl

@[simp] theorem members_withLeaky : (host.withLeaky leaky).members = host.members := by
  rw [members, members, definitions_withLeaky]

@[simp] theorem survivorOf?_withLeaky (resolution : Resolution) :
    (host.withLeaky leaky).survivorOf? resolution = host.survivorOf? resolution := by
  rw [survivorOf?, survivorOf?, definition?_withLeaky, definitionNamed?_withLeaky]

/-! ## Synchronising -/

theorem sync_withLeaky (call definition : BlockId) :
    (host.withLeaky leaky).sync call definition =
      (host.sync call definition).map id (·.withLeaky leaky) := by
  rw [sync, sync, parameters_withLeaky, parameters_withLeaky]
  cases host.parameters definition with
  | error _ => rfl
  | ok parameters =>
      dsimp only
      rw [identitiesOf_withLeaky]
      by_cases hknown : (host.identitiesOf parameters).length ≠ parameters.count
      · rw [if_pos hknown, if_pos hknown]
        rfl
      · rw [if_neg hknown, if_neg hknown]
        cases host.parameters call with
        | error _ => rfl
        | ok current =>
            dsimp only
            by_cases hsame : current = ⟨parameters.labels, host.identitiesOf parameters⟩
            · rw [if_pos hsame, if_pos hsame]
              rfl
            · rw [if_neg hsame, if_neg hsame, setParameters_withLeaky]
              cases host.setParameters call ⟨parameters.labels, host.identitiesOf parameters⟩ <;>
                rfl

theorem syncEach_withLeaky (definition : BlockId) (calls : List CallSite) (tally : Tally) :
    (host.withLeaky leaky).syncEach definition calls tally =
      (host.syncEach definition calls tally).map id (·.withLeaky leaky) := by
  induction calls generalizing host tally with
  | nil => rfl
  | cons call rest ih =>
      rw [syncEach, sync_withLeaky]
      exact ih _ _

theorem syncCallers_withLeaky (definition : Definition) :
    (host.withLeaky leaky).syncCallers definition =
      (host.syncCallers definition).map id (·.withLeaky leaky) := by
  rw [syncCallers, callersOf_withLeaky]
  exact host.syncEach_withLeaky leaky _ _ _

theorem syncNamed_withLeaky (calls : List CallSite) (tally : Tally) :
    (host.withLeaky leaky).syncNamed calls tally =
      (host.syncNamed calls tally).map id (·.withLeaky leaky) := by
  induction calls generalizing host tally with
  | nil => rfl
  | cons call rest ih =>
      rw [syncNamed, syncNamed, definitionNamed?_withLeaky]
      cases host.definitionNamed? call.name with
      | none => exact ih _ _
      | some definition =>
          dsimp only
          rw [sync_withLeaky]
          exact ih _ _

/-! ## Plans -/

theorem renameEach_withLeaky (name : String) (calls : List CallSite) (renamed : Nat) :
    (host.withLeaky leaky).renameEach name calls renamed =
      (host.renameEach name calls renamed).map id (·.withLeaky leaky) := by
  induction calls generalizing host renamed with
  | nil => rfl
  | cons call rest ih =>
      rw [renameEach, renameEach, setField_withLeaky]
      cases host.setField call.id nameField name with
      | error _ => exact ih _ _
      | ok written => exact ih _ _

theorem rebindCallers_withLeaky (resolution : Resolution) :
    (host.withLeaky leaky).rebindCallers resolution =
      (host.rebindCallers resolution).map id (·.withLeaky leaky) := by
  rw [rebindCallers, rebindCallers, callersOf_withLeaky]
  split
  · rfl
  · exact host.renameEach_withLeaky leaky _ _ _

theorem syncSurvivor_withLeaky (resolution : Resolution) :
    (host.withLeaky leaky).syncSurvivor resolution =
      (host.syncSurvivor resolution).map id (·.withLeaky leaky) := by
  rw [syncSurvivor, syncSurvivor, survivorOf?_withLeaky]
  cases host.survivorOf? resolution with
  | none => rfl
  | some survivor => exact host.syncCallers_withLeaky leaky survivor

theorem resolve_withLeaky (resolution : Resolution) (report : ApplyReport) :
    (host.withLeaky leaky).resolve resolution report =
      (host.resolve resolution report).map id (·.withLeaky leaky) := by
  rw [resolve, resolve, definition?_withLeaky]
  cases host.definition? resolution.removed with
  | none => rfl
  | some _ =>
      rw [rebindCallers_withLeaky]
      generalize host.rebindCallers resolution = rebound
      dsimp only [Prod.map]
      rw [dispose_withLeaky, syncSurvivor_withLeaky]
      rfl

theorem resolveAll_withLeaky (plan : List Resolution) (report : ApplyReport) :
    (host.withLeaky leaky).resolveAll plan report =
      (host.resolveAll plan report).map id (·.withLeaky leaky) := by
  induction plan generalizing host report with
  | nil => rfl
  | cons resolution rest ih =>
      rw [resolveAll, resolve_withLeaky]
      exact ih _ _

theorem apply_withLeaky (plan : List Resolution) :
    (host.withLeaky leaky).apply plan = (host.apply plan).map id (·.withLeaky leaky) :=
  host.resolveAll_withLeaky leaky plan .blank

theorem sweep_withLeaky :
    (host.withLeaky leaky).sweep = host.sweep.map id (·.withLeaky leaky) := by
  rw [sweep, sweep, members_withLeaky, apply_withLeaky]
  generalize host.apply (plan host.members) = applied
  dsimp only [Prod.map]
  rw [callSites_withLeaky, syncNamed_withLeaky]
  rfl

end Host
end CallBinding
