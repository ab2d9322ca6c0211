import CallBinding.Proofs.Workbench.Sound

/-!
# Call sites stay bound

A controller may rename call sites and dispose of definitions, but in doing so
it never leaves a call site without a definition that had one.  This holds
after each single command, so not even a program that reads the graph in the
middle of a turn finds a call site that the controller has unbound.
-/

namespace CallBinding

namespace Graph

/-- A call site that is bound stays bound after each command of a trail that keeps it so. -/
theorem Trail.isBound_take {blocks : List Block} {commands : List Command}
    (htrail : Trail Keeps blocks commands) {id : BlockId} (hbound : IsBound blocks id) (n : Nat) :
    IsBound (Command.replayAll blocks (commands.take n)) id :=
  (htrail.take n).preserves (fun later => IsBound later id)
    (fun _ _ hlater hkeeps => hkeeps id hlater) hbound

end Graph

namespace Workbench

/-- In a run without scripted faults no command of a turn unbinds a call site. -/
theorem isBound_of_turn {bench : Workbench} (h : Reachable Move.IsFaultless bench)
    {controller : Controller} (hseat : bench.seat = .running controller) {message : Message}
    {rest : List Message} (hmailbox : controller.mailbox = message :: rest) :
    let turn := { controller with mailbox := rest }.handle bench.clock bench.host message
    ∃ issued,
      turn.host.editor.commands = bench.host.editor.commands ++ issued ∧
      turn.host.editor.blocks = Command.replayAll bench.host.editor.blocks issued ∧
      ∀ n id, Graph.IsBound bench.host.editor.blocks id →
        Graph.IsBound (Command.replayAll bench.host.editor.blocks (issued.take n)) id := by
  intro turn
  obtain ⟨issued, outbox, htrail, hafter⟩ := h.sound.handle_keeps hseat hmailbox
  have hturn : turn.host =
      bench.host.withEditor { bench.host.editor.issue issued with outbox := outbox } := hafter
  refine ⟨issued, ?_, ?_, fun n id hbound => htrail.isBound_take hbound n⟩
  · rw [hturn]
    rfl
  · rw [hturn]
    rfl

/-- The cleanup takes a variant away and renames the call site that was bound to it first. -/
theorem isBound_of_turn_of_variant :
    let bench := ((new false).run
      [.user (.define "f" ["x"]), .user (.define "f2" ["x"]), .user (.call "f2"),
        .attach .sweep .default, .user (.define "g" []), .advance 10]).2.move (.wake 300)
    let controller := { Controller.new .default .sweep with
      debounce := ⟨1, true⟩
      mailbox := [.due (.debounce 1)] }
    bench.seat = .running controller ∧ Graph.IsBound bench.host.editor.blocks ⟨2⟩ ∧
      let turn := { controller with mailbox := [] }.handle bench.clock bench.host
        (.due (.debounce 1))
      ∃ issued,
        turn.host.editor.commands = bench.host.editor.commands ++ issued ∧
        turn.host.editor.blocks = Command.replayAll bench.host.editor.blocks issued ∧
        .setField ⟨2⟩ nameField "f" ∈ issued ∧ .dispose ⟨1⟩ ∈ issued ∧
        ∀ n, Graph.IsBound (Command.replayAll bench.host.editor.blocks (issued.take n)) ⟨2⟩ := by
  intro bench controller
  have hseat : bench.seat = .running controller := by decide +kernel
  have hbound : Graph.IsBound bench.host.editor.blocks ⟨2⟩ := by
    unfold Graph.IsBound Graph.Carries
    decide +kernel
  have hreachable : Reachable Move.IsFaultless bench := by
    obtain ⟨autoDefine, hleads⟩ := reachable_run false
      [.user (.define "f" ["x"]), .user (.define "f2" ["x"]), .user (.call "f2"),
        .attach .sweep .default, .user (.define "g" []), .advance 10] (by decide)
    exact ⟨autoDefine, hleads.move trivial⟩
  refine ⟨hseat, hbound, ?_⟩
  dsimp only
  obtain ⟨issued, hcommands, hblocks, hkeeps⟩ := isBound_of_turn hreachable hseat rfl
  have hnone : bench.host.editor.commands = [] := by decide +kernel
  have hissued := hcommands
  rw [hnone, List.nil_append] at hissued
  have hrename : .setField ⟨2⟩ nameField "f" ∈ issued := by
    rw [← hissued]
    decide +kernel
  have hdispose : .dispose ⟨1⟩ ∈ issued := by
    rw [← hissued]
    decide +kernel
  exact ⟨issued, hcommands, hblocks, hrename, hdispose, fun n => hkeeps n ⟨2⟩ hbound⟩

end Workbench
end CallBinding
