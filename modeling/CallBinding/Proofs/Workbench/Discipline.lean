import CallBinding.Proofs.Workbench.Ordered

/-!
# The discipline of every operation

Whatever reconciles the graph of a reachable workbench, called by itself or by
the controller, takes disciplined commands and leaves all else alone.  Nothing
is supposed of the faults of the host, of its answers by role, or of the plans
that it is given to carry out.
-/

namespace CallBinding

open CallBinding.Graph (Trail Reconciles Frame)

namespace Workbench

/-- The operations that reconcile the graph, each with the host that it leaves. -/
inductive Operation (bench : Workbench) : Host → Prop
  | apply (plan : List Resolution) : Operation bench (bench.host.apply plan).2
  | sweep : Operation bench bench.host.sweep.2
  | sync (call definition : BlockId) : Operation bench (bench.host.sync call definition).2
  | syncCallers (definition : Definition) : Operation bench (bench.host.syncCallers definition).2
  /-- The controller handles the first message in its mailbox. -/
  | handle {controller : Controller} {message : Message} {rest : List Message} :
      bench.seat = .running controller → controller.mailbox = message :: rest →
      Operation bench
        ({ controller with mailbox := rest }.handle bench.clock bench.host message).host

variable {bench : Workbench} {after : Host}

theorem Ordered.operates (h : Ordered bench) (hafter : Operation bench after) :
    Host.Operates (Reconciles fun _ => True) bench.host after := by
  have hdistinct := h.consistent.numbered.distinct
  cases hafter with
  | apply plan => exact .openly (Host.apply_reconciles hdistinct fun _ _ => trivial)
  | sweep => exact .openly (Host.sweep_reconciles hdistinct)
  | sync call definition => exact .openly (bench.host.sync_issues call definition).reconciles_of_binds
  | syncCallers definition =>
      exact .openly (bench.host.syncCallers_issues definition).reconciles_of_binds
  | handle hseat hmailbox =>
      apply (h.handle_reconciles hseat hmailbox).mono
      intro blocks command hcommand
      exact hcommand.mono fun _ _ => trivial

/-- Every operation takes disciplined commands, which leave alone what they are not about. -/
theorem disciplined_of_reachable (h : Reachable (fun _ => True) bench)
    (hafter : Operation bench after) :
    ∃ issued,
      after.editor.commands = bench.host.editor.commands ++ issued ∧
      after.editor.blocks = Command.replayAll bench.host.editor.blocks issued ∧
      Trail (Reconciles fun _ => True) bench.host.editor.blocks issued ∧
      Frame bench.host.editor.blocks after.editor.blocks ∧
      after.editor.declarations = bench.host.editor.declarations := by
  have hordered := h.ordered
  obtain ⟨issued, outbox, htrail, hissued⟩ := (hordered.operates hafter).replays
  have hframe := Graph.frame_of_reconciles hordered.consistent.numbered.distinct htrail
  rw [hissued]
  exact ⟨issued, rfl, rfl, htrail, hframe, rfl⟩

/-- A leaky host whose call site hides its name is given a plan that names blocks of every role. -/
theorem disciplined_of_reachable_smuggling :
    let bench := ((new false).run
      [.user (.define "f" ["x"]), .user (.call "f"), .user .createOther,
        .setFaults ⟨1⟩ [.fieldUnset], .setLeaky true]).2
    let plan : List Resolution := [⟨⟨1⟩, "f", ⟨0⟩, "g", .exactDuplicate⟩,
      ⟨⟨2⟩, "", ⟨1⟩, "f", .richerSibling⟩, ⟨⟨0⟩, "f", ⟨2⟩, "h", .priorSibling⟩]
    let after := (bench.host.apply plan).2
    (Reachable (fun _ => True) bench ∧ Operation bench after) ∧
      ∃ issued,
        after.editor.commands = bench.host.editor.commands ++ issued ∧
        after.editor.blocks = Command.replayAll bench.host.editor.blocks issued ∧
        Trail (Reconciles fun _ => True) bench.host.editor.blocks issued ∧
        Frame bench.host.editor.blocks after.editor.blocks ∧
        after.editor.declarations = bench.host.editor.declarations := by
  intro bench plan after
  have hreachable : Reachable (fun _ => True) bench :=
    ⟨false, leads_run (fun _ _ => trivial) _ _ fun _ _ _ _ => trivial⟩
  have hoperation : Operation bench after := .apply plan
  exact ⟨⟨hreachable, hoperation⟩, disciplined_of_reachable hreachable hoperation⟩

end Workbench
end CallBinding
