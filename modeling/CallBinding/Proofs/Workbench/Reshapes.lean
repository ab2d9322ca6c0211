import CallBinding.Proofs.Workbench.Discipline

/-!
# What a move makes of an editor

A move leaves the editor alone, or takes over what one user, one program or one
operation has made of it.  `Reshapes` lists these cases, so that what each of
them keeps is kept by every move.
-/

namespace CallBinding
namespace Workbench

/-- How the editor has come about that a workbench has after a move. -/
inductive Reshapes (bench : Workbench) : Move → Editor → Prop
  | kept (move : Move) : Reshapes bench move bench.host.editor
  | acted {action : UserAction} {yield : Yield} (editor : Editor) :
      bench.host.editor.act action = .ok (yield, editor) →
      Reshapes bench (.act action) editor.delivered
  | forgot : Reshapes bench (.inspect .clearCommands) bench.host.editor.clearCommands.delivered
  | performed {command : Command} (after : Host) : bench.host.perform command = .ok after →
      Reshapes bench (.request (.command command)) after.editor.delivered
  | suppressed : Reshapes bench (.request .suppress) bench.host.suppress.editor.delivered
  | resumed : Reshapes bench (.request .resume) bench.host.resume.editor.delivered
  | operated (move : Move) (after : Host) : Operation bench after →
      Reshapes bench move after.editor.delivered

theorem editor_adopt (bench : Workbench) (host : Host) :
    (bench.adopt host).host.editor = host.editor.delivered :=
  rfl

theorem reshapes_request (bench : Workbench) (request : HostRequest) :
    Reshapes bench (.request request) (bench.request request).2.host.editor := by
  cases request with
  | command command =>
      simp only [Workbench.request]
      cases hperform : bench.host.perform command with
      | ok after => exact .performed after hperform
      | error _ => exact .kept _
  | field id key =>
      simp only [Workbench.request]
      split <;> exact .kept _
  | parameters id =>
      simp only [Workbench.request]
      split <;> exact .kept _
  | suppress => exact .suppressed
  | resume => exact .resumed
  | subscribe | unsubscribe _ | block _ | blocksOfRole _ | declared _ | heard _ => exact .kept _

theorem reshapes_reconcile (bench : Workbench) (reconciliation : Reconciliation) :
    Reshapes bench (.reconcile reconciliation)
      (bench.reconcile reconciliation).2.host.editor := by
  cases reconciliation with
  | sync call definition =>
      simp only [reconcile, editor_adopt]
      exact .operated _ _ (.sync call definition)
  | syncCallers definition =>
      simp only [reconcile]
      split
      · exact .kept _
      next found _ =>
        rw [editor_adopt]
        exact .operated _ _ (.syncCallers found)
  | apply plan =>
      simp only [reconcile, carryOut, editor_adopt]
      exact .operated _ _ (.apply (plan.getD bench.plan))
  | sweep =>
      simp only [reconcile, editor_adopt]
      exact .operated _ _ .sweep
  | plan | planFamily _ | planSpawned _ _ =>
      simp only [reconcile, keepPlan]
      exact .kept _
  | identitiesOf _ | members => exact .kept _

theorem reshapes_move (bench : Workbench) (move : Move) :
    Reshapes bench move (bench.move move).host.editor := by
  cases move with
  | act action =>
      simp only [Workbench.move, act]
      split
      next yield editor hact => exact .acted editor hact
      next => exact .kept _
  | inspect inspection =>
      cases inspection with
      | clearCommands => exact .forgot
      | _ => exact .kept _
  | request request => exact bench.reshapes_request request
  | reconcile reconciliation => exact bench.reshapes_reconcile reconciliation
  | handle =>
      rcases bench.handleNext_cases with hsame | ⟨_, _, _, hseat, hmailbox, hturn⟩
      · rw [Workbench.move, hsame]
        exact .kept _
      · rw [Workbench.move, hturn, takeTurn, editor_adopt]
        exact .operated _ _ (.handle hseat hmailbox)
  | attach cleanup settings =>
      simp only [Workbench.move, install]
      split <;> exact .kept _
  | wake time =>
      simp only [Workbench.move, wake]
      split <;> exact .kept _
  | setFaults _ _ | setLeaky _ | tick _ | dismiss | vacate => exact .kept _

end Workbench
end CallBinding
